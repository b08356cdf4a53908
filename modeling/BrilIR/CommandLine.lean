import BrilIR.Source
import BrilIR.Text.ControlSequence

/-!
The command line. Arguments are read from left to right. An option's value is looked at only when
the next argument is taken up, so a fault of that argument's own form is told first.
-/

namespace BrilIR

namespace CommandLine

structure Settings where
  options : VerifyOptions := {}
  debug : Bool := false
  input : Option String := none
deriving DecidableEq, Repr

inductive Stop where
  | help
  | version
  | unknownArgument (argument : String)
  | missingValue (option : String)
  | badValue (option value : String) (e : NumeralError)
  | repeated (option : String)
  | unwantedValue (option value : String)
deriving DecidableEq, Repr

/-- Which arguments a command has beside those about verification and `--help`. -/
structure Spec where
  debug : Bool
  version : Bool
  input : Bool
deriving DecidableEq, Repr

def Spec.minimal : Spec := ⟨false, false, false⟩

def Spec.full : Spec := ⟨true, true, true⟩

inductive Flag where
  | noVerify
  | debug
  | help
  | version
deriving DecidableEq, Repr

/-- An argument that begins with two hyphens, by its name. -/
inductive Long where
  | flag (f : Flag)
  | maxDiagnostics
deriving DecidableEq, Repr

def Spec.long? (s : Spec) (name : String) : Option Long :=
  match name with
  | "no-verify" => some (.flag .noVerify)
  | "max-diagnostics" => some .maxDiagnostics
  | "help" => some (.flag .help)
  | "debug" => if s.debug then some (.flag .debug) else none
  | "version" => if s.version then some (.flag .version) else none
  | _ => none

def Spec.short? (s : Spec) (c : Char) : Option Flag :=
  match c with
  | 'h' => some .help
  | 'V' => if s.version then some .version else none
  | _ => none

def Flag.text : Flag → String
  | noVerify => "--no-verify"
  | debug => "--debug"
  | help => "--help"
  | version => "--version"

def maxText : String := "--max-diagnostics <N>"

def maxValue : Nat := UInt64.size - 1

structure State where
  noVerify : Bool := false
  maxDiagnostics : Option Nat := none
  debug : Bool := false
  input : Option String := none
  /-- The option whose value is still to be looked at, if it has come. -/
  pending : Option (Option String) := none
  /-- Whether `--` has come, behind which there are no options. -/
  closed : Bool := false
deriving DecidableEq, Repr

namespace State

def setMax (s : State) (value : String) : Except Stop State :=
  match s.maxDiagnostics with
  | some _ => .error (.repeated maxText)
  | none =>
    match readNumeral maxValue value.toList with
    | .ok n => .ok { s with maxDiagnostics := some n }
    | .error e => .error (.badValue maxText value e)

def settle (s : State) : Except Stop State :=
  match s.pending with
  | none => .ok s
  | some none => .error (.missingValue maxText)
  | some (some value) => { s with pending := none }.setMax value

def raise (s : State) (f : Flag) : Except Stop State := do
  let s ← s.settle
  match f with
  | .help => .error .help
  | .version => .error .version
  | .noVerify => if s.noVerify then .error (.repeated f.text) else .ok { s with noVerify := true }
  | .debug => if s.debug then .error (.repeated f.text) else .ok { s with debug := true }

def takeLong (spec : Spec) (s : State) (body : List Char) : Except Stop State :=
  let name := String.ofList (body.takeWhile (· ≠ '='))
  let value :=
    match body.dropWhile (· ≠ '=') with
    | [] => none
    | _ :: cs => some (String.ofList cs)
  match spec.long? name, value with
  | none, _ => .error (.unknownArgument ("--" ++ name))
  | some (.flag f), some value => .error (.unwantedValue f.text value)
  | some (.flag f), none => s.raise f
  | some .maxDiagnostics, some value => do (← s.settle).setMax value
  | some .maxDiagnostics, none => do return { ← s.settle with pending := some none }

def takeShort (spec : Spec) (s : State) : List Char → Except Stop State
  | [] => .ok s
  | c :: cs =>
    match spec.short? c with
    | some f => do (← s.raise f).takeShort spec cs
    | none => .error (.unknownArgument (String.ofList ['-', c]))

def takePlain (spec : Spec) (s : State) (argument : String) : Except Stop State :=
  if spec.input && s.input.isNone then do
    return { ← s.settle with input := some argument }
  else .error (.unknownArgument argument)

def take (spec : Spec) (s : State) (argument : String) : Except Stop State :=
  if s.closed then s.takePlain spec argument
  else match argument.toList with
    | ['-', '-'] => .ok { s with closed := true }
    | '-' :: '-' :: body => s.takeLong spec body
    | '-' :: c :: cs => s.takeShort spec (c :: cs)
    | _ =>
      -- a value is only put down here, and looked at when the next argument is taken up
      if s.pending = some none then .ok { s with pending := some (some argument) }
      else s.takePlain spec argument

def settings (s : State) : Settings where
  options := { verify := !s.noVerify, maxDiagnostics := s.maxDiagnostics.getD 0 }
  debug := s.debug
  input := s.input

end State

def parse (spec : Spec) (arguments : List String) : Except Stop Settings := do
  let s ← arguments.foldlM (State.take spec) {}
  return (← s.settle).settings

def quoted (word : String) : String :=
  "'" ++ String.ofList (Text.plain word.toList) ++ "'"

def Stop.message : Stop → String
  | help => "help"
  | version => "version"
  | unknownArgument a => "unexpected argument " ++ quoted a ++ " found"
  | missingValue o => "a value is required for " ++ quoted o ++ " but none was supplied"
  | badValue o v e => "invalid value " ++ quoted v ++ " for " ++ quoted o ++ ": " ++ e.message
  | repeated o => "the argument " ++ quoted o ++ " cannot be used multiple times"
  | unwantedValue o v =>
    "unexpected value " ++ quoted v ++ " for " ++ quoted o ++ " found; no more were expected"

def helpText : String :=
  "Parse and verify Bril dialect IR\n\n" ++
  "Usage: bril-opt [OPTIONS] [INPUT]\n\n" ++
  "Arguments:\n" ++
  "  [INPUT]  The input file (- is interpreted as stdin) [default: -]\n\n" ++
  "Options:\n" ++
  "      --no-verify            Skip the verification of the parsed IR\n" ++
  "      --max-diagnostics <N>  Stop after N verification errors (0 means no limit) " ++
  "[default: 0]\n" ++
  "      --debug                Print debug logs\n" ++
  "  -h, --help                 Print help\n" ++
  "  -V, --version              Print version\n"

def versionText : String := "bril-opt 0.1.0\n"

def usageText : String :=
  "\n\nUsage: bril-opt [OPTIONS] [INPUT]\n\nFor more information, try '--help'.\n"

structure Response where
  exitCode : Nat
  stdout : String
  stderr : String
deriving DecidableEq, Repr

inductive ReadError where
  | notFound
  | isDirectory
  | notDirectory
  | nameTooLong
  | notText
  | other (text : String)
deriving DecidableEq, Repr

def ReadError.message : ReadError → String
  | notFound => "No such file or directory (os error 2)"
  | isDirectory => "Is a directory (os error 21)"
  | notDirectory => "Not a directory (os error 20)"
  | nameTooLong => "File name too long (os error 36)"
  | notText => "stream did not contain valid UTF-8"
  | other text => text

def decodeSource (bytes : ByteArray) : Except ReadError String :=
  match String.fromUTF8? bytes with
  | some source => .ok source
  | none => .error .notText

def Settings.inputName (s : Settings) : String := s.input.getD "-"

def Stop.respond : Stop → Response
  | help => ⟨0, helpText, ""⟩
  | version => ⟨0, versionText, ""⟩
  | stop => ⟨2, "", "error: " ++ stop.message ++ usageText⟩

def Settings.refuse (s : Settings) (e : ReadError) : Response :=
  let name := if s.inputName = "-" then "stdin" else s.inputName
  ⟨1, "", "Failed to read " ++ name ++ ": " ++ e.message ++ "\n"⟩

/-- Whether a source breaks off where no answer is given. -/
def Rejection.isAbort : Rejection → Bool
  | .unreadable (.lexical e) => e.fault == .openEscape
  | _ => false

def Settings.respond (s : Settings) (source : String) : Response :=
  let log := if s.debug then String.join ((s.options.log source).map (· ++ "\n")) else ""
  match s.options.format source with
  | .ok text => ⟨0, log ++ text ++ "\n", ""⟩
  | .error e => ⟨if Rejection.isAbort e then 101 else 1, log, e.render source ++ "\n"⟩

def Settings.respondTo (s : Settings) (input : Except ReadError ByteArray) : Response :=
  match input.bind decodeSource with
  | .error e => s.refuse e
  | .ok source => s.respond source

end CommandLine

end BrilIR
