import BrilIR.CommandLine

/-! The program: reads the arguments and the input, and writes what comes of them. -/

namespace BrilIR.CommandLine

/-- The number of a system error. Some calls give it with the other sign, in 32 bits. -/
def systemCode (code : UInt32) : Nat := min code.toNat (-code).toNat

def ReadError.ofIO : IO.Error → ReadError
  | .noFileOrDirectory .. => .notFound
  | .inappropriateType _ code _ => if systemCode code = 20 then .notDirectory else .isDirectory
  | .invalidArgument _ code details =>
    if systemCode code = 36 then .nameTooLong
    else .other (details.capitalize ++ " (os error " ++ toString (systemCode code) ++ ")")
  | .permissionDenied _ code details =>
    .other (details.capitalize ++ " (os error " ++ toString (systemCode code) ++ ")")
  | e => .other (toString e)

def Settings.readInput (s : Settings) : IO (Except ReadError ByteArray) := do
  if s.inputName = "-" then
    return .ok (← (← IO.getStdin).readBinToEnd)
  else
    try
      return .ok (← IO.FS.readBinFile s.inputName)
    catch e =>
      return .error (.ofIO e)

def Response.send (r : Response) : IO UInt32 := do
  IO.print r.stdout
  IO.eprint r.stderr
  return .ofNat r.exitCode

end BrilIR.CommandLine

def main (arguments : List String) : IO UInt32 := do
  match BrilIR.CommandLine.parse .full arguments with
  | .error stop => stop.respond.send
  | .ok settings => (settings.respondTo (← settings.readInput)).send
