import HostCatch.Program.Basic

namespace HostCatch

/-- Work on a body that is being built. -/
abbrev Build := StateT Body (Except Abort)

namespace Build

/-- A new sequence that no instruction contains yet. -/
def newSeq (type : BlockType) : Build SeqId := do
  let b ← get
  set (b.addSeq type)
  pure b.seqs.length

/-- A sequence that is already there. -/
def oldSeq (id : SeqId) : Build SeqId := do
  let _ ← (← get).seq id
  pure id

/-- An instruction at the end of a sequence. -/
def emit (seq : SeqId) (i : Instr) : Build Unit :=
  modify fun b => b.append seq i

def emitAll (seq : SeqId) (is : List Instr) : Build Unit :=
  is.forM (emit seq)

/-- A construct around one new sequence. The sequence is filled before the construct is put in
place. -/
def enclose (seq : SeqId) (type : BlockType) (construct : SeqId → Instr)
    (fill : SeqId → Build Unit) : Build Unit := do
  let inner ← newSeq type
  fill inner
  emit seq (construct inner)

def block (seq : SeqId) (type : BlockType) (fill : SeqId → Build Unit) : Build Unit :=
  enclose seq type .block fill

def loop (seq : SeqId) (type : BlockType) (fill : SeqId → Build Unit) : Build Unit :=
  enclose seq type .loop fill

/-- A conditional; its alternative gets its sequence once the consequent is filled. -/
def ifElse (seq : SeqId) (type : BlockType) (consequent alternative : SeqId → Build Unit) :
    Build Unit := do
  let first ← newSeq type
  consequent first
  let second ← newSeq type
  alternative second
  emit seq (.ifElse first second)

def tryTable (seq : SeqId) (type : BlockType) (clauses : List Clause) (fill : SeqId → Build Unit) :
    Build Unit :=
  enclose seq type (.tryTable · clauses) fill

/-- A `try` whose handlers are sequences built before. -/
def tryCatch (seq : SeqId) (type : BlockType) (handlers : List Handler)
    (fill : SeqId → Build Unit) : Build Unit :=
  enclose seq type (.tryCatch · handlers none) fill

end Build

namespace Body

/-- The body of a function of a type, with nothing but an empty entry. -/
def start (type : TypeId) : Body :=
  { seqs := [⟨.multi type, []⟩] }

/-- The local variables that instructions use and that are not parameters, in the order of their
first use. -/
def usedLocals (params : List LocalId) (visits : List Visit) : List LocalId :=
  visits.foldl (fun used v =>
    match v.instr.localVar? with
    | some var => if var ∈ params ∨ var ∈ used then used else used ++ [var]
    | none => used) []

/-- The body with its variables declared. -/
def finish (b : Body) (params : List LocalId) : Except Abort Body := do
  let visits ← b.walk
  pure { b with params, locals := b.locals ++ usedLocals params visits }

end Body

/-- Adds a function whose body has been built. -/
def Program.define (p : Program) (name : Bytes) (type : TypeId) (params : List LocalId) (b : Body) :
    Except Abort (FuncId × Program) := do
  let b ← b.finish params
  pure (p.addFunction ⟨name, type, .defined b⟩)

end HostCatch
