import HostCatch.Proofs.Program.Moving
import HostCatch.Proofs.Program.Shaping

namespace HostCatch

open List HostCatch.Numbering

/-- What an instruction with an opcode refers to. -/
structure Reference (α : Type) where
  op : UInt8
  target : α

/-- What an instruction of a program refers to: an entity, or an index as it stands in an instruction
that is not looked into. -/
inductive Target where
  | entity (id : Nat)
  | index (index : UInt32)

namespace Wire

/-- The tables that an instruction on whole tables names. -/
def bulkTables (sub : UInt32) (operands : List UInt32) : List UInt32 :=
  match sub.toNat, operands with
  | 12, _ :: table :: _ => [table]
  | 14, target :: source :: _ => [target, source]
  | 15, table :: _ => [table]
  | 16, table :: _ => [table]
  | 17, table :: _ => [table]
  | _, _ => []

def CatchClause.tags (c : CatchClause) : List UInt32 :=
  if takesTag c.kind then [c.tag] else []

/-- The indices of a space that an instruction names. -/
def Instr.indices (space : Space) (i : Instr) : List UInt32 :=
  match space, Layout.ofOpcode? i.op, i.imm with
  | .func, some .call, .call func => [func]
  | .func, some .refFunc, .refFunc func => [func]
  | .table, some .callIndirect, .callIndirect _ table => [table]
  | .table, some .table, .table table => [table]
  | .table, some .misc, .misc sub operands => bulkTables sub operands
  | .tag, some .throw, .throw tag => [tag]
  | .tag, some .tryTable, .tryTable _ catches => catches.flatMap CatchClause.tags
  | _, _, _ => []

def Instr.references (space : Space) (i : Instr) : List (Reference UInt32) :=
  (i.indices space).map (⟨i.op, ·⟩)

/-- All that code refers to in a space. -/
def references (space : Space) (is : List Instr) : List (Reference UInt32) :=
  is.flatMap (Instr.references space)

end Wire

def Clause.tags (c : Clause) : List TagId :=
  if Wire.CatchClause.takesTag c.kind then [c.tag] else []

namespace Instr

/-- References of one space, and none of any other. -/
def refer (space wanted : Space) (op : UInt8) (ids : List Nat) : List (Reference Target) :=
  if wanted = space then ids.map (⟨op, .entity ·⟩) else []

/-- What an instruction refers to in a space, in the order in which it is written. -/
def references (space : Space) (nested : SeqId → List (Reference Target)) :
    Instr → List (Reference Target)
  | .block id => nested id
  | .loop id => nested id
  | .ifElse consequent alternative => nested consequent ++ nested alternative
  | .tryCatch id handlers _ =>
    nested id ++ handlers.flatMap fun h =>
      refer space .tag 0x07 h.tag.toList ++ nested h.seq
  | .tryTable id clauses => refer space .tag 0x1F (clauses.flatMap Clause.tags) ++ nested id
  | .call func => refer space .func 0x10 [func]
  | .returnCall func => refer space .func 0x12 [func]
  | .refFunc func => refer space .func 0xD2 [func]
  | .callIndirect _ table => refer space .table 0x11 [table]
  | .returnCallIndirect _ table => refer space .table 0x13 [table]
  | .tableGet table => refer space .table 0x25 [table]
  | .tableSet table => refer space .table 0x26 [table]
  | .throw tag => refer space .tag 0x08 [tag]
  | .raw i => (i.references space).map fun x => ⟨x.op, .index x.target⟩
  | _ => []

end Instr

/-- What a sequence of a body refers to in a space, with sequences nested at most `bound` deep. -/
def Body.referencesIn (b : Body) (space : Space) : Nat → SeqId → List (Reference Target)
  | 0, _ => []
  | bound + 1, id => (b.seqs[id]?.map Seq.instrs).getD [] |>.flatMap
      (Instr.references space fun inner => b.referencesIn space bound inner)

def Body.references (b : Body) (space : Space) : List (Reference Target) :=
  b.referencesIn space (b.seqs.length + 1) b.entry

/-- How references are written: entities by their indices. -/
inductive Reference.Writes (order : List Nat) : Reference Target → Reference UInt32 → Prop
  | entity {op id index} : Denotes order index id → Writes order ⟨op, .entity id⟩ ⟨op, index⟩
  | index {op index} : Writes order ⟨op, .index index⟩ ⟨op, index⟩

/-- The same reference with another index, which stands for the entity whose position it was. -/
inductive Reference.Moves (order : List Nat) : Reference UInt32 → Reference UInt32 → Prop
  | index {op before after} : Denotes order after before.toNat →
      Moves order ⟨op, before⟩ ⟨op, after⟩

/-- Code refers to what these references are. -/
def Refers (l : Numbering) (space : Space) (xs : List (Reference Target)) (ws : List Wire.Instr) :
    Prop :=
  List.Forall₂ (Reference.Writes (l.order space)) xs (Wire.references space ws)

namespace Refers

variable {l : Numbering} {space : Space} {xs ys : List (Reference Target)} {vs ws : List Wire.Instr}

theorem append (hx : Refers l space xs vs) (hy : Refers l space ys ws) :
    Refers l space (xs ++ ys) (vs ++ ws) := by
  rw [Refers, Wire.references, flatMap_append]
  exact rel_append hx hy

theorem silent {w : Wire.Instr} (h : w.indices space = []) : Refers l space [] [w] := by
  rw [Refers, Wire.references, flatMap_singleton, Wire.Instr.references, h]
  exact .nil

theorem enclosed {first last : Wire.Instr} (hfirst : first.indices space = [])
    (hlast : last.indices space = []) (h : Refers l space xs ws) :
    Refers l space xs (first :: ws ++ [last]) := by
  have hall := ((silent hfirst).append h).append (silent hlast)
  rwa [nil_append, append_nil] at hall

/-- An instruction that names indices of the space `wanted` only. -/
theorem refer {wanted : Space} {op : UInt8} {imm : Wire.Imm} {ids : List Nat} {indices : List UInt32}
    (hindices : ∀ space, Wire.Instr.indices space ⟨op, imm⟩ = if wanted = space then indices else [])
    (h : Forall₂ (fun id index => Denotes (l.order wanted) index id) ids indices) :
    Refers l space (Instr.refer space wanted op ids) [⟨op, imm⟩] := by
  rw [Refers, Wire.references, flatMap_singleton, Wire.Instr.references, hindices, Instr.refer]
  split
  next hspace =>
    subst hspace
    rw [forall₂_map_left_iff, forall₂_map_right_iff]
    exact h.imp fun _ _ hdenotes => .entity hdenotes
  next => exact .nil

theorem refer_one {wanted : Space} {op : UInt8} {imm : Wire.Imm} {id : Nat} {index : UInt32}
    (hindices : ∀ space, Wire.Instr.indices space ⟨op, imm⟩ = if wanted = space then [index] else [])
    (h : Denotes (l.order wanted) index id) :
    Refers l space (Instr.refer space wanted op [id]) [⟨op, imm⟩] :=
  refer hindices (.cons h .nil)

theorem flatten {α : Type} {f : α → List (Reference Target)} {as : List α}
    {parts : List (List Wire.Instr)}
    (h : Forall₂ (fun a part => Refers l space (f a) part) as parts) :
    Refers l space (as.flatMap f) parts.flatten := by
  induction h with
  | nil => exact .nil
  | cons hfirst _ ih =>
    rw [flatMap_cons, flatten_cons]
    exact hfirst.append ih

end Refers

/-- Each entity has an index of its own, which can be written. -/
def Numbering.Indexes (l : Numbering) : Prop :=
  ∀ space, ∃ n, n ≤ 2 ^ 32 ∧ (l.order space).Perm (List.range n)

namespace Numbering.Indexes

variable {l : Numbering} (h : l.Indexes)

include h

theorem denotes (space : Space) {id : Nat} {i : UInt32} (hi : index (l.order space) id = .ok i) :
    Denotes (l.order space) i id := by
  obtain ⟨n, hn, hperm⟩ := h space
  exact denotes_index hperm hn hi

end Numbering.Indexes

namespace Emitting

variable {w : Emitting} (hl : w.numbering.Indexes) (space : Space)

include hl

variable {labels : List SeqId}

/-- A leaf refers to what its operands name. -/
theorem Stands.refers {i : Instr} {j : Wire.Instr} (nested : SeqId → List (Reference Target))
    (h : w.Stands labels i j) : Refers w.numbering space (i.references space nested) [j] := by
  cases h with
  | call hk | returnCall hk | refFunc hk =>
    exact .refer_one (fun space => by cases space <;> rfl) (hl.denotes .func (funcIndex_eq_ok hk))
  | callIndirect _ hk | returnCallIndirect _ hk | tableGet hk | tableSet hk =>
    exact .refer_one (fun space => by cases space <;> rfl) (hl.denotes .table hk)
  | throw hk => exact .refer_one (fun space => by cases space <;> rfl) (hl.denotes .tag hk)
  | raw =>
    rw [Refers, Wire.references, flatMap_singleton, Instr.references, forall₂_map_left_iff]
    exact forall₂_same.mpr fun x _ => .index
  | _ => exact .silent (by cases space <;> rfl)

theorem Directs.tags {c : Clause} {d : Wire.CatchClause} (h : w.Directs labels c d) :
    Forall₂ (fun id index => Denotes w.numbering.tags index id) c.tags d.tags := by
  rw [Clause.tags, Wire.CatchClause.tags, h.kind]
  split
  next htakes => exact .cons (hl.denotes .tag (h.tag htakes)) .nil
  next => exact .nil

theorem catches_refer {clauses : List Clause} {catches : List Wire.CatchClause}
    (h : Forall₂ (w.Directs labels) clauses catches) (type : Int32) :
    Refers w.numbering space (Instr.refer space .tag 0x1F (clauses.flatMap Clause.tags))
      [⟨0x1F, .tryTable type catches⟩] := by
  refine .refer (fun space => by cases space <;> rfl) ?_
  exact rel_flatMap h fun _ _ hc => hc.tags hl

theorem Opening.refers {tag : Option TagId} {first : Wire.Instr} (h : w.Opening tag first) :
    Refers w.numbering space (Instr.refer space .tag 0x07 tag.toList) [first] := by
  cases h with
  | all =>
    rw [Option.toList_none, Instr.refer, map_nil, ite_self]
    exact .silent (by cases space <;> rfl)
  | tag htag => exact .refer_one (fun space => by cases space <;> rfl) (hl.denotes .tag htag)

variable {types : List Signature}

/-- One instruction: its own references, then those inside it. -/
theorem Shapes.refers {N : SeqId → List Wire.Instr → Prop} {i : Instr} {part : List Wire.Instr}
    (h : w.Shapes types N labels i part) {refs : SeqId → List (Reference Target)}
    (hnested : ∀ id ws, N id ws → Refers w.numbering space (refs id) ws)
    (hempty : ∀ id s, w.body.seqs[id]? = some s → s.instrs = [] → refs id = []) :
    Refers w.numbering space (i.references space refs) part := by
  have hsilent (op : UInt8) (type : Int32) : Wire.Instr.indices space ⟨op, .block type⟩ = [] := by
    unfold Wire.Instr.indices
    split <;> simp_all
  have hclose : close.indices space = [] := by
    cases space <;> rfl
  cases h with
  | plain hx => exact hx.refers hl space refs
  | block _ hws | loop _ hws => exact (hnested _ _ hws).enclosed (hsilent _ _) hclose
  | ifEmpty _ hfirst hs hnil =>
    rw [Instr.references, hempty _ _ hs hnil, append_nil]
    exact (hnested _ _ hfirst).enclosed (hsilent _ _) hclose
  | ifElse _ hfirst hsecond =>
    have helse : Refers w.numbering space [] [⟨0x05, .none⟩] := .silent (by cases space <;> rfl)
    have hother := helse.append (hnested _ _ hsecond)
    exact ((hnested _ _ hfirst).append hother).enclosed (hsilent _ _) hclose
  | tryCatch delegate _ hws hparts =>
    refine ((hnested _ _ hws).append (.flatten (hparts.imp ?_))).enclosed (hsilent _ _)
      (by cases delegate <;> cases space <;> rfl)
    rintro h part ⟨first, inner, hfirst, hinner, rfl⟩
    exact (hfirst.refers hl space).append (hnested _ _ hinner)
  | @tryTable _ _ k _ _ _ hcatches hws =>
    have hall := ((catches_refer hl space hcatches k).append (hnested _ _ hws)).append (.silent hclose)
    rwa [append_nil] at hall

/-- Code refers to what the instructions name, in order. -/
theorem Codes.refers {bound : Nat} {id : SeqId} {ws : List Wire.Instr}
    (h : w.Codes types bound labels id ws) :
    Refers w.numbering space (w.body.referencesIn space bound id) ws := by
  induction bound generalizing labels id ws with
  | zero => exact h.elim
  | succ bound ih =>
    obtain ⟨s, parts, hs, hparts, rfl⟩ := h
    rw [Body.referencesIn, hs, Option.map_some, Option.getD_some]
    refine .flatten (hparts.imp fun i part hpart => ?_)
    refine hpart.refers hl space (fun _ _ hws => ih hws) fun inner t ht hnone => ?_
    -- a sequence without instructions refers to nothing, however deep it is
    cases bound with
    | zero => rfl
    | succ bound =>
      rw [Body.referencesIn, ht, Option.map_some, Option.getD_some, hnone]
      rfl

end Emitting

end HostCatch
