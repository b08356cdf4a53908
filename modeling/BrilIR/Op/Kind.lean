import BrilIR.Op.Shape
import BrilIR.Ty.Basic

/-! What ops there are, and what each of them demands. -/

namespace BrilIR

inductive Instr where
  | const
  | add
  | sub
  | mul
  | div
  | eq
  | lt
  | gt
  | le
  | ge
  | not
  | and
  | or
  | id
  | undef
  | nop
  | print
  | alloc
  | free
  | store
  | load
  | ptrAdd
  | call
  | jmp
  | br
  | ret
deriving DecidableEq, Repr

namespace Instr

def all : List Instr :=
  [const, add, sub, mul, div, eq, lt, gt, le, ge, not, and, or, id, undef, nop, print, alloc, free,
    store, load, ptrAdd, call, jmp, br, ret]

def name : Instr → String
  | const => "bril.const"
  | add => "bril.add"
  | sub => "bril.sub"
  | mul => "bril.mul"
  | div => "bril.div"
  | eq => "bril.eq"
  | lt => "bril.lt"
  | gt => "bril.gt"
  | le => "bril.le"
  | ge => "bril.ge"
  | not => "bril.not"
  | and => "bril.and"
  | or => "bril.or"
  | id => "bril.id"
  | undef => "bril.undef"
  | nop => "bril.nop"
  | print => "bril.print"
  | alloc => "bril.alloc"
  | free => "bril.free"
  | store => "bril.store"
  | load => "bril.load"
  | ptrAdd => "bril.ptr_add"
  | call => "bril.call"
  | jmp => "bril.jmp"
  | br => "bril.br"
  | ret => "bril.ret"

def shape : Instr → Shape
  | const | undef => .fixed 0 1
  | add | sub | mul | div | eq | lt | gt | le | ge | and | or | ptrAdd => .fixed 2 1
  | not | id | alloc | load => .fixed 1 1
  | nop => .fixed 0 0
  | free => .fixed 1 0
  | store => .fixed 2 0
  | print | ret => ⟨.variadic, .exact 0, .exact 0⟩
  | call => ⟨.variadic, .atMost 1, .exact 0⟩
  | jmp => ⟨.exact 0, .exact 0, .exact 1⟩
  | br => ⟨.exact 1, .exact 0, .exact 2⟩

def required : Instr → List String
  | const => ["value"]
  | call => ["callee"]
  | _ => []

def isTerminator : Instr → Bool
  | jmp | br | ret => true
  | _ => false

end Instr

/-- The two families of functions, which differ in the op that returns from them. -/
inductive FuncStyle where
  | func
  | bril
deriving DecidableEq, Repr

namespace FuncStyle

def name : FuncStyle → String
  | func => "func.func"
  | bril => "bril.func"

def returnName : FuncStyle → String
  | func => "return"
  | bril => "bril.ret"

end FuncStyle

structure Signature where
  identifier : Option String := none
  returns : List Ty := []
deriving DecidableEq, Repr

inductive OpKind where
  | moduleOp
  | funcOp (style : FuncStyle) (signature : Signature)
  | returnOp
  | instr (i : Instr)
deriving DecidableEq, Repr

namespace OpKind

def name : OpKind → String
  | moduleOp => "module"
  | funcOp style _ => style.name
  | returnOp => "return"
  | instr i => i.name

/-- All kinds of ops, functions without a signature. -/
def all : List OpKind :=
  [moduleOp, funcOp .func {}, returnOp, funcOp .bril {}] ++ Instr.all.map instr

def ofName? (s : String) : Option OpKind :=
  all.find? (·.name == s)

def shape : OpKind → Shape
  | moduleOp => .any
  | funcOp _ _ => .fixed 0 0
  | returnOp => ⟨.variadic, .exact 0, .exact 0⟩
  | instr i => i.shape

def required : OpKind → List String
  | instr i => i.required
  | _ => []

def isTerminator : OpKind → Bool
  | returnOp => true
  | instr i => i.isTerminator
  | _ => false

end OpKind

def dialectName : String := "bril"

def dialectDescription : String := "Big Red Intermediate Language"

end BrilIR
