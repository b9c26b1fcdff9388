import HostCatch.Proofs.Program.Readable
import HostCatch.Proofs.Program.Refusing

namespace HostCatch

/-- A computation succeeds if `ok` holds, and otherwise stops at a label that is not around. -/
structure Hinges {α : Type} (x : Except Failure α) (ok : Prop) : Prop where
  succeeds : ok → ∃ a, x = .ok a
  stops : ¬ ok → ∃ d, x = .error (.fault (.diagnosed d)) ∧ d.kind = .unresolvedLabel

theorem Hinges.of_ends {α : Type} {x : Except Failure α} {ok : Prop}
    (h : Turns (fun e => ¬ ok ∧ ∃ d, e = .fault (.diagnosed d) ∧ d.kind = .unresolvedLabel) x
      fun _ => ok) : Hinges x ok := by
  cases x with
  | ok a => exact ⟨fun _ => ⟨a, rfl⟩, fun hnot => absurd (h.result a rfl) hnot⟩
  | error e =>
    obtain ⟨hnot, d, rfl, hd⟩ := h.failure e rfl
    exact ⟨fun hok => absurd hok hnot, fun _ => ⟨d, rfl, hd⟩⟩

namespace Instr.Supplied

variable {p : Program} {b : Body} {i : Instr}

theorem within (h : i.Supplied p b) : i.Within p.tables.length p.tags.length := by
  cases i with
  | callIndirect | returnCallIndirect => exact h.2
  | tryCatch => exact h.1
  | tableGet | tableSet | throw | tryTable | raw => exact h
  | _ => trivial

theorem var (h : i.Supplied p b) {var : LocalId} (hvar : i.localVar? = some var) : var ∈ b.slots := by
  cases i with
  | localGet | localSet | localTee =>
    cases hvar
    exact h
  | _ => cases hvar

theorem clean (h : i.Supplied p b) : i.Clean := by
  cases i with
  | raw => exact h
  | _ => trivial

theorem called (h : i.Supplied p b) : ∀ type ∈ i.calledType?, type < p.types.length := by
  cases i with
  | callIndirect | returnCallIndirect =>
    rintro _ ⟨⟩
    exact h.1
  | _ =>
    intro _ hnone
    cases hnone

end Instr.Supplied

/-- The body of a function type is a tree of sequences that names what is there. -/
structure Program.Supplies (p : Program) (type : TypeId) (b : Body) : Prop where
  typed : type < p.types.length
  params : b.params.length = (p.params type).length
  tree : b.IsTree
  blocks : ∀ s ∈ b.seqs, s.type.Readable p.types.length
  instrs : ∀ s ∈ b.seqs, ∀ i ∈ s.instrs, i.Supplied p b
  vars : ∀ var ∈ b.declared, ∃ v, p.locals[var]? = some v ∧ v.IsKnown
  seqs : b.seqs.length < 2 ^ 32
  slots : b.slots.length < 2 ^ 32

namespace Program

variable {p : Program}

/-- A body that names what is there is written unless it has a branch that leads elsewhere. -/
theorem Supplies.emitBody_ends {type : TypeId} {b : Body} (h : p.Supplies type b) (hp : p.Paired)
    {F : Failure → Prop} (hF : ¬ b.Enclosed → ∀ d : Diagnostic, d.kind = .unresolvedLabel →
      F (.fault (.diagnosed d))) (id : FuncId) :
    Emit.Turns F (p.emitBody p.numbering id b) fun _ => b.Enclosed := by
  obtain ⟨visits, hwalk, -⟩ := h.tree
  refine Program.emitBody_ends hwalk (fun var hvar hnone => ?_) fun v hv labels e hpath hrefuses => ?_
  · obtain ⟨type, htype, -⟩ := h.vars var hvar
    cases hnone.symm.trans htype
  · have hinstr := (Body.walkSeq_visit hwalk hv).2
    obtain ⟨s, hs, hi⟩ := Option.bind_eq_some_iff.mp hinstr
    have hsupplied := h.instrs s (List.mem_of_getElem? hs) _ (List.mem_of_getElem? hi)
    cases hrefuses with
    | label htarget hnone hd =>
      exact hF (fun hall => hnone (hall v.seq labels v.index v.instr hpath hinstr _ htarget)) _ hd
    | var hvar hnone => exact absurd (hsupplied.var hvar) hnone
    | operand hnone => exact absurd hsupplied (hnone p (hp.covers id b))
    | entity hnone =>
      rw [hp.tables_length, hp.tags_length] at hnone
      exact absurd hsupplied.within hnone

/-- All functions with bodies have such that name what is there. -/
def Supplied (p : Program) : Prop :=
  ∀ f ∈ p.funcs, ∀ b, f.kind = .defined b → p.Supplies f.type b

/-- The bodies of all functions branch to enclosing sequences only. -/
def Enclosed (p : Program) : Prop :=
  ∀ f ∈ p.funcs, ∀ b, f.kind = .defined b → b.Enclosed

/-- Bodies can be written exactly if they branch to enclosing sequences only. -/
theorem Supplied.bodies_hinge (h : p.Supplied) (hp : p.Paired) (u : List ValType) :
    Hinges ((p.definedFuncs.mapM (p.emitFunction p.numbering)).run u) p.Enclosed := by
  refine .of_ends (((Emit.Turns.mapM (R := fun id _ => ∀ f b, p.funcs[id]? = some f →
    f.kind = .defined b → b.Enclosed) fun id hid => ?_) u).mono fun out hall f hf b hb => ?_)
  · obtain ⟨f, hf, hnone⟩ := mem_positions.mp hid
    obtain ⟨b, hb⟩ := Function.kind_of_not_isImported (by simpa using hnone)
    have hmem := List.mem_of_getElem? hf
    have hsupplies := h f hmem b hb
    have hbody : f.body? = some b := by simp [Function.body?, hb]
    unfold emitFunction
    simp only [hf, Option.map_some, Option.getD_some, Option.bind_some, hbody]
    rw [if_neg (Nat.not_le.mpr hsupplies.typed)]
    refine (hsupplies.emitBody_ends hp (fun hstray d hd => ?_) id).bind fun _ henclosed => .pure ?_
    · exact ⟨fun hall => hstray (hall f hmem b hb), d, rfl, hd⟩
    · rintro _ c ⟨⟩ hc
      cases hb.symm.trans hc
      exact henclosed
  · obtain ⟨id, hid⟩ := List.getElem?_of_mem hf
    have hdefined : id ∈ p.definedFuncs :=
      mem_positions.mpr ⟨f, hid, by simp [Function.isImported, Function.import?, hb]⟩
    obtain ⟨_, -, henclosed⟩ := forall₂_mem_left hall hdefined
    exact henclosed f b hid hb

end Program

end HostCatch
