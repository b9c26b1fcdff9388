import HostCatch.Program.Types
import HostCatch.Wire.Instr.Basic

namespace HostCatch

-- Entities are known by their position in the list that holds them.

abbrev TypeId := Nat
abbrev FuncId := Nat
abbrev TableId := Nat
abbrev TagId := Nat
abbrev ImportId := Nat
abbrev ExportId := Nat
abbrev LocalId := Nat
abbrev SeqId := Nat

/-- What a sequence of instructions takes and gives. -/
inductive BlockType where
  | empty
  | single (result : ValType)
  | multi (type : TypeId)
  deriving DecidableEq

/-- A numeric constant; floating point numbers are bit patterns. Kinds without constants are kept so
that they can be refused. -/
inductive Value where
  | i32 (value : Int32)
  | i64 (value : Int64)
  | f32 (bits : UInt32)
  | f64 (bits : UInt64)
  | other (kind : ValKind)
  deriving DecidableEq

namespace Value

/-- The zero of a kind. -/
def zero : ValKind → Value
  | .i32 => i32 0
  | .i64 => i64 0
  | .f32 => f32 0
  | .f64 => f64 0
  | kind => other kind

/-- Zero with a positive sign, where the kind has signed zeros. -/
def isPositiveZero : Value → Bool
  | i32 value => value = 0
  | i64 value => value = 0
  | f32 bits => bits = 0
  | f64 bits => bits = 0
  | other _ => false

end Value

/-- A handler of a `try`: for one tag, or for every exception. -/
structure Handler where
  tag : Option TagId
  seq : SeqId
  deriving DecidableEq

/-- A clause of a `try_table`: the label it branches to is that of a sequence. -/
structure Clause where
  kind : UInt8
  tag : TagId
  label : SeqId
  deriving DecidableEq

/-- An instruction. Nested code is a sequence of the same body, and a branch names the sequence
whose label it goes to. -/
inductive Instr where
  | block (seq : SeqId)
  | loop (seq : SeqId)
  | ifElse (consequent alternative : SeqId)
  | br (target : SeqId)
  | brIf (target : SeqId)
  | brTable (targets : List SeqId) (default : SeqId)
  | call (func : FuncId)
  | returnCall (func : FuncId)
  | callIndirect (type : TypeId) (table : TableId)
  | returnCallIndirect (type : TypeId) (table : TableId)
  | localGet (var : LocalId)
  | localSet (var : LocalId)
  | localTee (var : LocalId)
  | tableGet (table : TableId)
  | tableSet (table : TableId)
  | const (value : Value)
  | refNull (type : RefType)
  | refFunc (func : FuncId)
  | throw (tag : TagId)
  | tryCatch (seq : SeqId) (handlers : List Handler) (delegate : Option UInt32)
  | tryTable (seq : SeqId) (clauses : List Clause)
  | ret
  | unreachable
  /-- Any other instruction, as it is written. -/
  | raw (instr : Wire.Instr)
  deriving DecidableEq

namespace Instr

/-- The sequences nested in an instruction, in the order in which they are written. -/
def children : Instr → List SeqId
  | block seq => [seq]
  | loop seq => [seq]
  | ifElse consequent alternative => [consequent, alternative]
  | tryCatch seq handlers _ => seq :: handlers.map Handler.seq
  | tryTable seq _ => [seq]
  | _ => []

/-- The local variable that an instruction reads or writes. -/
def localVar? : Instr → Option LocalId
  | localGet var => some var
  | localSet var => some var
  | localTee var => some var
  | _ => none

/-- The function that an instruction calls directly, also as a tail call. -/
def callee? : Instr → Option FuncId
  | call func => some func
  | returnCall func => some func
  | _ => none

/-- A direct call with another function in place of the one called. -/
def retarget (func : FuncId) : Instr → Instr
  | call _ => call func
  | returnCall _ => returnCall func
  | i => i

end Instr

/-- A sequence of instructions with its type. -/
structure Seq where
  type : BlockType
  instrs : List Instr
  deriving DecidableEq

end HostCatch
