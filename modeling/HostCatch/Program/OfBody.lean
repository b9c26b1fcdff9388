import HostCatch.Program.Basic
import HostCatch.Wire.Instr.Codec

namespace HostCatch

/-- The part that an open frame plays in the construct it belongs to, with what is known of that
construct. -/
inductive Role where
  | entry
  /-- The only part of a construct that is already known. -/
  | sole (construct : Instr)
  | consequent (alternative : SeqId)
  | alternative (consequent : SeqId)
  | tried
  | handler (tried : SeqId) (handlers : List Handler)
  deriving DecidableEq

/-- A construct that is open while instructions are read, and the sequence they go to. -/
structure Frame where
  seq : SeqId
  role : Role
  deriving DecidableEq

/-- The construct that closes with a frame; closing the entry closes the body itself. -/
def Frame.construct? (f : Frame) : Option Instr :=
  match f.role with
  | .entry => none
  | .sole construct => some construct
  | .consequent alternative => some (.ifElse f.seq alternative)
  | .alternative consequent => some (.ifElse consequent f.seq)
  | .tried => some (.tryCatch f.seq [] none)
  | .handler tried handlers => some (.tryCatch tried handlers none)

/-- What instructions of a body may refer to. -/
structure Scope where
  func : FuncId
  locals : List LocalId
  types : Nat
  funcs : Nat
  tables : Nat
  tags : Nat

/-- Sequences found so far and the open frames, innermost first. -/
structure Reading where
  seqs : List Seq
  frames : List Frame
  deriving DecidableEq

namespace Scope

variable (scope : Scope)

def fail (detail : String) : Fault :=
  .diagnosed (.invalidData .parse (Diagnostic.numbered "func" scope.func []) detail)

/-- An index is below the number of entities of its kind. -/
def check (what : String) (index bound : Nat) : Except Fault Nat :=
  if index < bound then .ok index
  else
    let path := Diagnostic.numbered "func" scope.func [what]
    .error (.diagnosed (.outOfBounds .parse path index bound))

def funcRef (index : UInt32) : Except Fault FuncId :=
  scope.check "call" index.toNat scope.funcs

def tagRef (index : UInt32) : Except Fault TagId :=
  scope.check "tag" index.toNat scope.tags

def tableRef (index : UInt32) : Except Fault TableId :=
  scope.check "table" index.toNat scope.tables

def localRef (index : UInt32) : Except Fault LocalId :=
  match scope.locals[index.toNat]? with
  | some var => .ok var
  | none => scope.check "local" index.toNat scope.locals.length

/-- The fault with its text as the detail of a diagnostic. -/
def restate {α : Type} : Except Fault α → Except Fault α
  | .ok a => .ok a
  | .error fault =>
    .error (.diagnosed {
      phase := .parse
      kind := .invalidData
      path := Diagnostic.numbered "func" scope.func []
      detail := fault.message })

/-- The type of a block: a type index, a value type by its code as a negative number, or none. -/
def blockType (type : Int32) : Except Fault BlockType :=
  if type = -64 then .ok .empty
  else if 0 ≤ type then BlockType.multi <$> scope.check "blocktype" type.toInt.toNat scope.types
  else BlockType.single <$>
    scope.restate (ValType.ofCode (UInt8.ofNat ((type.toInt + 0x80) % 0x100).toNat))

/-- The sequence whose label is at a depth among the open frames. -/
def label (frames : List Frame) (depth : UInt32) : Except Fault SeqId :=
  match frames[depth.toNat]? with
  | some f => .ok f.seq
  | none => .error (.diagnosed {
      phase := .parse
      kind := .unresolvedLabel
      path := Diagnostic.numbered "func" scope.func []
      value := some (.int depth.toNat)
      detail := utf8 s!"branch depth {depth} exceeds nesting {frames.length}" })

def clause (frames : List Frame) (c : Wire.CatchClause) : Except Fault Clause := do
  let label ← scope.label frames c.label
  let tag ← if Wire.CatchClause.takesTag c.kind then scope.tagRef c.tag else pure 0
  pure ⟨c.kind, tag, label⟩

end Scope

namespace Reading

/-- An instruction at the end of the sequence of a frame. -/
def emit (r : Reading) (f : Frame) (i : Instr) : Reading :=
  { r with seqs := r.seqs.modify f.seq fun s => { s with instrs := s.instrs ++ [i] } }

/-- Opens a frame on a new sequence. -/
def openSeq (r : Reading) (type : BlockType) (role : SeqId → Role) : Reading :=
  ⟨r.seqs ++ [⟨type, []⟩], ⟨r.seqs.length, role r.seqs.length⟩ :: r.frames⟩

/-- Closes a construct: it becomes an instruction of the frame around it. -/
def close (r : Reading) (outer : List Frame) (construct : Option Instr) : Reading :=
  match construct, outer with
  | some i, around :: _ => { r.emit around i with frames := outer }
  | _, _ => { r with frames := outer }

/-- The type of the sequence that a frame's `try` guards. -/
def triedType (r : Reading) (tried : SeqId) : BlockType :=
  (r.seqs[tried]?.map Seq.type).getD .empty

/-- Opens a handler after the guarded sequence or after another handler. -/
def openHandler (r : Reading) (outer : List Frame) (tried : SeqId) (before : List Handler)
    (tag : Option TagId) : Reading :=
  let r := { r with frames := outer }
  r.openSeq (r.triedType tried) fun seq => .handler tried (before ++ [⟨tag, seq⟩])

/-- One instruction, read inside the frame `top` with the frames `outer` around it. -/
def step (scope : Scope) (r : Reading) (top : Frame) (outer : List Frame) (i : Wire.Instr) :
    Except Fault Reading :=
  let emit (i : Instr) : Except Fault Reading := .ok (r.emit top i)
  let handle (tag : Except Fault (Option TagId)) : Except Fault Reading :=
    match top.role with
    | .tried => do pure (r.openHandler outer top.seq [] (← tag))
    | .handler tried handlers => do pure (r.openHandler outer tried handlers (← tag))
    | _ => .error (scope.fail "catch outside try")
  match i.op.toNat, i.imm with
  | 0x02, .block type => do
    let type ← scope.blockType type
    pure (r.openSeq type fun seq => .sole (.block seq))
  | 0x03, .block type => do
    let type ← scope.blockType type
    pure (r.openSeq type fun seq => .sole (.loop seq))
  | 0x04, .block type => do
    let type ← scope.blockType type
    let r := r.openSeq type fun seq => .consequent (seq + 1)
    pure { r with seqs := r.seqs ++ [⟨type, []⟩] }
  | 0x05, _ =>
    match top.role with
    | .consequent alternative =>
      .ok { r with frames := ⟨alternative, .alternative top.seq⟩ :: outer }
    | _ => .error (scope.fail "else outside if")
  | 0x06, .block type => do
    let type ← scope.blockType type
    pure (r.openSeq type fun _ => .tried)
  | 0x07, .throw tag => handle (some <$> scope.tagRef tag)
  | 0x19, _ => handle (.ok none)
  | 0x18, .branch depth =>
    match top.role with
    | .tried => .ok (r.close outer (some (.tryCatch top.seq [] (some depth))))
    | _ => .error (scope.fail "delegate outside try")
  | 0x1F, .tryTable type catches => do
    let type ← scope.blockType type
    let clauses ← catches.mapM (scope.clause r.frames)
    pure (r.openSeq type fun seq => .sole (.tryTable seq clauses))
  | 0x0B, _ => .ok (r.close outer top.construct?)
  | 0x0C, .branch depth => do emit (.br (← scope.label r.frames depth))
  | 0x0D, .branch depth => do emit (.brIf (← scope.label r.frames depth))
  | 0x0E, .brTable labels last => do
    let targets ← labels.mapM (scope.label r.frames)
    emit (.brTable targets (← scope.label r.frames last))
  | 0x10, .call func => do emit (.call (← scope.funcRef func))
  | 0x12, .call func => do emit (.returnCall (← scope.funcRef func))
  | 0x11, .callIndirect type table => do
    let type ← scope.check "call_indirect" type.toNat scope.types
    emit (.callIndirect type (← scope.tableRef table))
  | 0x13, .callIndirect type table => do
    let type ← scope.check "call_indirect" type.toNat scope.types
    emit (.returnCallIndirect type (← scope.tableRef table))
  | 0x20, .localVar index => do emit (.localGet (← scope.localRef index))
  | 0x21, .localVar index => do emit (.localSet (← scope.localRef index))
  | 0x22, .localVar index => do emit (.localTee (← scope.localRef index))
  | 0x25, .table index => do emit (.tableGet (← scope.tableRef index))
  | 0x26, .table index => do emit (.tableSet (← scope.tableRef index))
  | 0x41, .i32 value => emit (.const (.i32 value))
  | 0x42, .i64 value => emit (.const (.i64 value))
  | 0x43, .f32 bits => emit (.const (.f32 bits))
  | 0x44, .f64 bits => emit (.const (.f64 bits))
  | 0xD0, .refNull heap => emit (.refNull ⟨true, heap⟩)
  | 0xD2, .refFunc func => do emit (.refFunc (← scope.funcRef func))
  | 0x08, .throw tag => do emit (.throw (← scope.tagRef tag))
  | 0x0F, _ => emit .ret
  | 0x00, _ => emit .unreachable
  | _, _ => emit (.raw i)

/-- The instructions of a body, up to the `end` that closes its entry. -/
def run (scope : Scope) : Reading → List Wire.Instr → Except Fault (List Seq)
  | ⟨seqs, []⟩, [] => .ok seqs
  | ⟨_, _ :: _⟩, [] => .error (scope.fail "unterminated body")
  | ⟨_, []⟩, _ :: _ => .error (scope.fail "instructions after final end")
  | ⟨seqs, top :: outer⟩, i :: is => do
    let next ← step scope ⟨seqs, top :: outer⟩ top outer i
    run scope next is

end Reading

/-- The sequences that the code of a function of a type spells. -/
def Body.seqsOfCode (scope : Scope) (type : TypeId) (code : Bytes) : Except Fault (List Seq) := do
  match Wire.decodeInstrs code with
  | .error cause =>
    let detail := utf8 s!"func {scope.func} body"
    throw (.caused { phase := .parse, kind := .invalidData, detail } (.read cause))
  | .ok instrs => Reading.run scope ⟨[⟨.multi type, []⟩], [⟨0, .entry⟩]⟩ instrs

end HostCatch
