import HostCatch.Program.Numbering
import HostCatch.Wire.Instr.Codec

namespace HostCatch

/-- Writing collects the result types of blocks that no type of the program describes. -/
abbrev Emit := StateT (List ValType) (Except Failure)

/-- What is known while the body of a function is written. -/
structure Emitting where
  numbering : Numbering
  types : List Signature
  func : FuncId
  body : Body
  /-- The parameters and local variables in the order of their indices. -/
  slots : List LocalId

namespace Emitting

variable (w : Emitting)

def path (below : List String) : List Bytes :=
  Diagnostic.numbered "func" w.func below

def fail {α : Type} (d : Diagnostic) : Except Failure α :=
  .error (.fault (.diagnosed d))

/-- The type of a block as a number. A result without a code of its own takes the type that gives
just this result, and where there is none a further type is asked for. -/
def blockType : BlockType → Emit Int32
  | .empty => pure (-64)
  | .multi type => pure (Int32.ofInt (UInt32.ofNat type).toNat)
  | .single result =>
    if result.needsHeap then do
      match w.types.findIdx? (· = ⟨[], [result]⟩) with
      | some id => pure (Int32.ofNat id)
      | none =>
        let extra ← get
        let place := extra.idxOf result
        if place = extra.length then set (extra ++ [result])
        pure (Int32.ofNat (w.types.length + place))
    else pure (Int32.ofInt (result.code.toNat - 0x80))

/-- The depth of the label of a sequence, seen from inside the labels, innermost first. -/
def depth (labels : List SeqId) (target : SeqId) : Except Failure UInt32 :=
  match labels.findIdx? (· = target) with
  | some n => .ok (UInt32.ofNat n)
  | none => fail {
      phase := .emit
      kind := .unresolvedLabel
      path := w.path []
      value := some (.int target)
      detail := utf8 s!"sequence {target} is not an enclosing label" }

def funcIndex (func : FuncId) : Except Failure UInt32 :=
  if func < w.numbering.funcs.length then .ok (Numbering.indexIn w.numbering.funcs func)
  else fail (.outOfBounds .emit (w.path ["call"]) func w.numbering.funcs.length)

/-- The index of a local variable: the last of its slots. -/
def slot (var : LocalId) : Except Failure UInt32 :=
  match w.slots.reverse.findIdx? (· = var) with
  | some n => .ok (UInt32.ofNat (w.slots.length - 1 - n))
  | none => fail {
      phase := .emit
      kind := .notFound
      path := w.path []
      value := some (.int var)
      detail := utf8 s!"local {var} is not declared by this function" }

def seq (id : SeqId) : Except Failure Seq :=
  match w.body.seqs[id]? with
  | some s => .ok s
  | none => fail (.outOfBounds .emit (w.path ["seq"]) id w.body.seqs.length)

def const : Value → Except Failure Wire.Instr
  | .i32 value => .ok ⟨0x41, .i32 value⟩
  | .i64 value => .ok ⟨0x42, .i64 value⟩
  | .f32 bits => .ok ⟨0x43, .f32 bits⟩
  | .f64 bits => .ok ⟨0x44, .f64 bits⟩
  | .other kind => fail (.unsupportedType .emit (w.path ["const"]) kind.text)

def clause (labels : List SeqId) (c : Clause) : Except Failure Wire.CatchClause := do
  let label ← w.depth labels c.label
  let tag ←
    if Wire.CatchClause.takesTag c.kind then w.numbering.tag c.tag
    else (.ok 0 : Except Abort UInt32)
  pure ⟨c.kind, tag, label⟩

def catches (labels : List SeqId) (clauses : List Clause) :
    Except Failure (List Wire.CatchClause) :=
  clauses.mapM (w.clause labels)

/-- An instruction that contains no sequence. -/
def plain (labels : List SeqId) : Instr → Except Failure Wire.Instr
  | .br target => do pure ⟨0x0C, .branch (← w.depth labels target)⟩
  | .brIf target => do pure ⟨0x0D, .branch (← w.depth labels target)⟩
  | .brTable targets last => do
    let depths ← targets.mapM (w.depth labels)
    pure ⟨0x0E, .brTable depths (← w.depth labels last)⟩
  | .call func => do pure ⟨0x10, .call (← w.funcIndex func)⟩
  | .returnCall func => do pure ⟨0x12, .call (← w.funcIndex func)⟩
  | .callIndirect type table => do
    pure ⟨0x11, .callIndirect (UInt32.ofNat type) (← w.numbering.table table)⟩
  | .returnCallIndirect type table => do
    pure ⟨0x13, .callIndirect (UInt32.ofNat type) (← w.numbering.table table)⟩
  | .localGet var => do pure ⟨0x20, .localVar (← w.slot var)⟩
  | .localSet var => do pure ⟨0x21, .localVar (← w.slot var)⟩
  | .localTee var => do pure ⟨0x22, .localVar (← w.slot var)⟩
  | .tableGet table => do pure ⟨0x25, .table (← w.numbering.table table)⟩
  | .tableSet table => do pure ⟨0x26, .table (← w.numbering.table table)⟩
  | .const value => w.const value
  | .refNull type => .ok ⟨0xD0, .refNull type.heap⟩
  | .refFunc func => do pure ⟨0xD2, .refFunc (← w.funcIndex func)⟩
  | .throw tag => do pure ⟨0x08, .throw (← w.numbering.tag tag)⟩
  | .ret => .ok ⟨0x0F, .none⟩
  | .unreachable => .ok ⟨0x00, .none⟩
  | .raw i => .ok i
  | _ => .error (.abort .mismatched)

/-- The `end` of a construct. -/
def close : Wire.Instr := ⟨0x0B, .none⟩

/-- The code of an instruction, with `nested` for the sequences in it. -/
def instr (nested : SeqId → Emit (List Wire.Instr)) (labels : List SeqId) :
    Instr → Emit (List Wire.Instr)
  | .block id => do
    let s ← w.body.seq id
    let type ← w.blockType s.type
    let inner ← nested id
    pure (⟨0x02, .block type⟩ :: inner ++ [close])
  | .loop id => do
    let s ← w.body.seq id
    let type ← w.blockType s.type
    let inner ← nested id
    pure (⟨0x03, .block type⟩ :: inner ++ [close])
  | .ifElse consequent alternative => do
    let s ← w.body.seq consequent
    let type ← w.blockType s.type
    let first ← nested consequent
    let other ← w.body.seq alternative
    let second ← if other.instrs = [] then pure [] else do
      let inner ← nested alternative
      pure (⟨0x05, .none⟩ :: inner)
    pure (⟨0x04, .block type⟩ :: first ++ second ++ [close])
  | .tryCatch id handlers delegate => do
    let s ← w.body.seq id
    let type ← w.blockType s.type
    let inner ← nested id
    let handled ← handlers.mapM fun h => do
      let opening : Wire.Instr ←
        match h.tag with
        | none => pure ⟨0x19, .none⟩
        | some tag => pure ⟨0x07, .throw (← w.numbering.tag tag)⟩
      pure (opening :: (← nested h.seq))
    let ending :=
      match delegate with
      | some depth => ⟨0x18, .branch depth⟩
      | none => close
    pure (⟨0x06, .block type⟩ :: inner ++ handled.flatten ++ [ending])
  | .tryTable id clauses => do
    let s ← w.body.seq id
    let type ← w.blockType s.type
    let catches ← w.catches labels clauses
    let inner ← nested id
    pure (⟨0x1F, .tryTable type catches⟩ :: inner ++ [close])
  | i => do pure [← w.plain labels i]

/-- The code of a sequence inside the labels, with sequences nested at most `bound` deep. -/
def code : Nat → List SeqId → SeqId → Emit (List Wire.Instr)
  | 0, _, _ => throw (.abort .cyclic)
  | bound + 1, labels, id => do
    let s ← w.seq id
    let parts ← s.instrs.mapM fun i =>
      w.instr (fun inner => code bound (inner :: labels) inner) labels i
    pure parts.flatten

end Emitting

namespace Body

/-- The slots of a body: its parameters, then the other local variables, each once. -/
def slots (b : Body) : List LocalId :=
  b.locals.foldl (fun slots var => if var ∈ slots then slots else slots ++ [var]) b.params

/-- The variables that are declared: the slots behind the parameters. -/
def declared (b : Body) : List LocalId :=
  b.slots.drop b.params.length

end Body

/-- Runs of equal types with their lengths. -/
def runs : List ValType → List (ValType × Nat)
  | [] => []
  | t :: ts =>
    match runs ts with
    | (u, n) :: rest => if t = u then (u, n + 1) :: rest else (t, 1) :: (u, n) :: rest
    | [] => [(t, 1)]

namespace Program

def localEntry : ValType × Nat → Wire.LocalEntry
  | (type, count) => ⟨UInt32.ofNat count, type.code, type.ext?⟩

/-- The types of the variables that a body declares. -/
def declaredTypesOf (p : Program) (w : Emitting) : Except Failure (List ValType) :=
  w.body.declared.mapM fun (var : LocalId) =>
    match p.locals[var]? with
    | some type => .ok type
    | none => Emitting.fail (.outOfBounds .emit (w.path ["local"]) var p.locals.length)

/-- The body of a function as it is written. -/
def emitBody (p : Program) (numbering : Numbering) (func : FuncId) (b : Body) :
    Emit Wire.FuncBody := do
  let w : Emitting := ⟨numbering, p.types, func, b, b.slots⟩
  let types ← p.declaredTypesOf w
  let instrs ← w.code (b.seqs.length + 1) [b.entry] b.entry
  let code ← Wire.encodeInstrs (instrs ++ [Emitting.close])
  pure ⟨(runs types).map localEntry, code⟩

end Program

end HostCatch
