import HostCatch.Program.Instr

namespace HostCatch

/-- The body of a function: its parameters and further local variables, and its sequences, of which
one is where execution starts. -/
structure Body where
  params : List LocalId := []
  locals : List LocalId := []
  seqs : List Seq := []
  entry : SeqId := 0
  deriving DecidableEq

/-- An instruction of a body and where it stands. -/
structure Visit where
  seq : SeqId
  index : Nat
  instr : Instr
  deriving DecidableEq

namespace Body

/-- The body with one more sequence, which is empty. -/
def addSeq (b : Body) (type : BlockType) : Body :=
  { b with seqs := b.seqs ++ [⟨type, []⟩] }

/-- The body with one more instruction at the end of a sequence. -/
def append (b : Body) (seq : SeqId) (i : Instr) : Body :=
  { b with seqs := b.seqs.modify seq fun s => { s with instrs := s.instrs ++ [i] } }

/-- The body with the instruction at a place changed. -/
def change (b : Body) (seq : SeqId) (index : Nat) (f : Instr → Instr) : Body :=
  { b with seqs := b.seqs.modify seq fun s => { s with instrs := s.instrs.modify index f } }

/-- The instruction at a place. -/
def instr? (b : Body) (seq : SeqId) (index : Nat) : Option Instr := do
  let s ← b.seqs[seq]?
  s.instrs[index]?

def seq (b : Body) (id : SeqId) : Except Abort Seq :=
  match b.seqs[id]? with
  | some s => .ok s
  | none => .error (.outOfRange id b.seqs.length)

/-- The instructions of a sequence, each followed by those nested in it, at most `bound` deep. -/
def walkSeq (b : Body) : Nat → SeqId → Except Abort (List Visit)
  | 0, _ => .error .cyclic
  | bound + 1, id => do
    let s ← b.seq id
    let visits ← s.instrs.zipIdx.mapM fun (i, index) => do
      let nested ← i.children.mapM (b.walkSeq bound)
      pure (⟨id, index, i⟩ :: nested.flatten)
    pure visits.flatten

/-- The instructions that can be reached from the entry, each followed by those nested in it.
Sequences that do not contain one another are nested no deeper than their number. -/
def walk (b : Body) : Except Abort (List Visit) :=
  b.walkSeq (b.seqs.length + 1) b.entry

end Body

end HostCatch
