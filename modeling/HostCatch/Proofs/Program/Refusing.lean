import HostCatch.Proofs.Program.Listing
import HostCatch.Proofs.Program.Paths

namespace HostCatch

open List

/-- A computation whose results have one property and whose failures have another. -/
structure Turns {α : Type} (F : Failure → Prop) (x : Except Failure α) (P : α → Prop) : Prop where
  result : ∀ a, x = .ok a → P a
  failure : ∀ e, x = .error e → F e

/-- A failure that is a fault, or an abort with a property. -/
def Failure.Aborts (A : Abort → Prop) (e : Failure) : Prop :=
  ∀ a, e = .abort a → A a

theorem Failure.Aborts.of {A : Abort → Prop} {a : Abort} (h : A a) : Aborts A (.abort a) := by
  rintro _ ⟨⟩
  exact h

namespace Turns

variable {α β : Type} {F : Failure → Prop} {P : α → Prop} {Q : β → Prop}
  {x : Except Failure α} {f : α → Except Failure β}

theorem pure {a : α} (h : P a) : Turns F (Pure.pure a) P where
  result := by
    rintro b ⟨⟩
    exact h
  failure := by
    rintro e ⟨⟩

theorem fail {e : Failure} (h : F e) : Turns F (.error e : Except Failure α) P where
  result := by
    rintro a ⟨⟩
  failure := by
    rintro e ⟨⟩
    exact h

theorem bind (hx : Turns F x P) (hf : ∀ a, P a → Turns F (f a) Q) : Turns F (x >>= f) Q := by
  cases hresult : x with
  | ok a => exact hf a (hx.result a hresult)
  | error e => exact fail (hx.failure e hresult)

theorem mono {P' : α → Prop} (hx : Turns F x P) (h : ∀ a, P a → P' a) : Turns F x P' :=
  ⟨fun a ha => h a (hx.result a ha), hx.failure⟩

theorem attempt {x : Except Abort α} (h : ∀ a, x = .error a → F (.abort a)) :
    Turns F (liftM x) fun a => x = .ok a := by
  cases x with
  | ok a => exact pure rfl
  | error a => exact fail (h a rfl)

theorem liftAbort {x : Except Abort α} {a : α} (h : x = .ok a) : Turns F (liftM x) (· = a) := by
  subst h
  exact pure rfl

theorem mapM {as : List α} {R : α → β → Prop} (hf : ∀ a ∈ as, Turns F (f a) (R a)) :
    Turns F (as.mapM f) (Forall₂ R as) := by
  induction as with
  | nil => exact pure .nil
  | cons a as ih =>
    rw [mapM_cons]
    refine (hf a mem_cons_self).bind fun b hb => ?_
    exact (ih fun a' ha' => hf a' (mem_cons_of_mem _ ha')).bind fun bs hbs => pure (.cons hb hbs)

theorem forM {f : α → Except Failure PUnit} {as : List α}
    (hf : ∀ a ∈ as, Turns F (f a) fun _ => True) : Turns F (as.forM f) fun _ => True := by
  induction as with
  | nil => exact pure trivial
  | cons a as ih =>
    refine (hf a mem_cons_self).bind fun _ _ => ?_
    exact ih fun b hb => hf b (mem_cons_of_mem a hb)

end Turns

/-- A computation whose results have one property and which is stopped by aborts of another. Faults
may end it at any time. -/
abbrev Ends {α : Type} (A : Abort → Prop) (x : Except Failure α) (P : α → Prop) : Prop :=
  Turns (Failure.Aborts A) x P

namespace Ends

variable {α : Type} {A : Abort → Prop} {P : α → Prop} {x : Except Failure α}

theorem fault (f : Fault) : Ends A (.error (.fault f) : Except Failure α) P :=
  .fail fun a ha => by cases ha

theorem abort (hx : Ends A x P) (a : Abort) (h : x = .error (.abort a)) : A a :=
  hx.failure _ h a rfl

theorem lift (x : Except Fault α) : Ends A (liftM x) fun a => x = .ok a := by
  cases x with
  | ok a => exact .pure rfl
  | error f => exact fault f

theorem emitting (hx : Ends A x P) (what : String) : Ends A (Program.emitting what x) P := by
  unfold Program.emitting
  split
  next => exact fault _
  next => exact hx

end Ends

namespace Emit

/-- Writing whose results have one property and whose failures have another. -/
def Turns {α : Type} (F : Failure → Prop) (x : Emit α) (P : α → Prop) : Prop :=
  ∀ u, HostCatch.Turns F (x.run u) fun r => P r.1

namespace Turns

variable {α β : Type} {F : Failure → Prop} {P : α → Prop} {Q : β → Prop}

theorem pure {a : α} (h : P a) : Turns F (Pure.pure a) P :=
  fun _ => .pure h

theorem bind {x : Emit α} {f : α → Emit β} (hx : Turns F x P) (hf : ∀ a, P a → Turns F (f a) Q) :
    Turns F (x >>= f) Q :=
  fun u => (hx u).bind fun r hr => hf r.1 hr r.2

theorem of_result {x : Emit α} {Q : α → Prop} (hx : Turns F x P)
    (h : ∀ u a v, x.run u = .ok (a, v) → Q a) : Turns F x Q :=
  fun u => ⟨fun r hr => h u r.1 r.2 hr, (hx u).failure⟩

theorem lift {x : Except Failure α} (hx : HostCatch.Turns F x P) : Turns F (liftM x) P :=
  fun _ => hx.bind fun _ ha => .pure ha

theorem liftAbort {x : Except Abort α} {a : α} (h : x = .ok a) : Turns F (liftM x) (· = a) := by
  subst h
  exact fun _ => .pure rfl

theorem mapM {f : α → Emit β} {as : List α} {R : α → β → Prop} (hf : ∀ a ∈ as, Turns F (f a) (R a)) :
    Turns F (as.mapM f) (Forall₂ R as) := by
  induction as with
  | nil => exact pure .nil
  | cons a as ih =>
    rw [mapM_cons]
    refine (hf a mem_cons_self).bind fun b hb => ?_
    exact (ih fun a' ha' => hf a' (mem_cons_of_mem _ ha')).bind fun bs hbs => pure (.cons hb hbs)

end Turns

end Emit

namespace Wire

theorem Instr.Spelled.writable {i : Instr} (h : i.Spelled) : i.Writable := by
  obtain ⟨bytes, hbytes, -⟩ := h
  exact ⟨bytes, hbytes⟩

theorem Instr.IsMark.writable {i : Instr} (h : i.IsMark) : i.Writable := by
  cases h <;> exact ⟨_, rfl⟩

theorem encodeInstrs_of_writable {is : List Instr} (h : ∀ i ∈ is, i.Writable) :
    ∃ bytes, encodeInstrs is = .ok bytes := by
  induction is with
  | nil => exact ⟨[], rfl⟩
  | cons i is ih =>
    obtain ⟨first, hfirst⟩ := h i mem_cons_self
    obtain ⟨others, hothers⟩ := ih fun j hj => h j (mem_cons_of_mem i hj)
    refine ⟨first ++ others, bind_eq_ok_iff.mpr ⟨first, hfirst, ?_⟩⟩
    exact bind_eq_ok_iff.mpr ⟨others, hothers, rfl⟩

end Wire

namespace Body

variable {b : Body} {labels : List SeqId}

theorem seq_of_walkSeq {bound : Nat} {id : SeqId} {visits : List Visit}
    (h : b.walkSeq bound id = .ok visits) : ∃ s, b.seqs[id]? = some s := by
  cases bound with
  | zero => cases h
  | succ bound =>
    obtain ⟨s, -, hs, -⟩ := walkSeq_succ_eq_ok_iff.mp h
    exact ⟨s, hs⟩

/-- A sequence is nested in another, with the sequences that enclose it where some enclose that one. -/
inductive PathFrom (b : Body) : SeqId → List SeqId → SeqId → List SeqId → Prop
  | refl (id : SeqId) (labels : List SeqId) : PathFrom b id labels id labels
  | step {id child seq : SeqId} {labels labels' : List SeqId} {index : Nat} {i : Instr} :
      b.instr? id index = some i → child ∈ i.children →
      PathFrom b child (child :: labels) seq labels' → PathFrom b id labels seq labels'

theorem PathFrom.nested {id seq child : SeqId} {labels' : List SeqId} {index : Nat} {i : Instr}
    (h : b.PathFrom id labels seq labels') (hi : b.instr? seq index = some i)
    (hchild : child ∈ i.children) : b.PathFrom id labels child (child :: labels') := by
  induction h with
  | refl => exact .step hi hchild (.refl _ _)
  | step hj hmem _ ih => exact .step hj hmem (ih hi)

theorem path_iff {seq : SeqId} : b.Path seq labels ↔ b.PathFrom b.entry [b.entry] seq labels := by
  constructor
  · intro h
    induction h with
    | entry => exact .refl _ _
    | nested _ hi hchild ih => exact ih.nested hi hchild
  · have hall : ∀ {id labels seq labels'}, b.PathFrom id labels seq labels' → b.Path id labels →
        b.Path seq labels' := by
      intro id labels seq labels' h
      induction h with
      | refl => exact fun hroot => hroot
      | step hi hchild _ ih => exact fun hroot => ih (hroot.nested hi hchild)
    exact fun h => hall h .entry

/-- What is nested in a sequence inside some labels branches to sequences around it only. -/
def EnclosedFrom (b : Body) (labels : List SeqId) (id : SeqId) : Prop :=
  ∀ seq labels' index i, b.PathFrom id labels seq labels' → b.instr? seq index = some i →
    ∀ target ∈ i.targets, target ∈ labels'

/-- Every instruction that can be reached branches to sequences around it only. -/
def Enclosed (b : Body) : Prop :=
  ∀ seq labels index i, b.Path seq labels → b.instr? seq index = some i →
    ∀ target ∈ i.targets, target ∈ labels

theorem enclosed_iff : b.Enclosed ↔ b.EnclosedFrom [b.entry] b.entry := by
  simp only [Enclosed, EnclosedFrom, path_iff]

theorem enclosedFrom_of_seq {id : SeqId} {s : Seq} (hs : b.seqs[id]? = some s)
    (h : ∀ i ∈ s.instrs, (∀ target ∈ i.targets, target ∈ labels) ∧
      ∀ child ∈ i.children, b.EnclosedFrom (child :: labels) child) : b.EnclosedFrom labels id := by
  intro seq labels' index i hpath hi
  cases hpath with
  | refl =>
    rw [instr?_of_seq hs] at hi
    exact (h i (mem_of_getElem? hi)).1
  | step hj hchild hpath =>
    rw [instr?_of_seq hs] at hj
    exact (h _ (mem_of_getElem? hj)).2 _ hchild seq labels' index i hpath hi

end Body

/-- What an instruction of a body names besides sequences is there, and what is kept as it is written
is kept so again. A `try` ends in one way only. -/
def Instr.Supplied (p : Program) (b : Body) : Instr → Prop
  | .call func => func < p.funcs.length
  | .returnCall func => func < p.funcs.length
  | .refFunc func => func < p.funcs.length
  | .callIndirect type table => type < p.types.length ∧ table < p.tables.length
  | .returnCallIndirect type table => type < p.types.length ∧ table < p.tables.length
  | .tableGet table => table < p.tables.length
  | .tableSet table => table < p.tables.length
  | .localGet var => var ∈ b.slots
  | .localSet var => var ∈ b.slots
  | .localTee var => var ∈ b.slots
  | .const value => ∀ kind, value ≠ .other kind
  | .throw tag => tag < p.tags.length
  | .tryCatch _ handlers delegate =>
    (∀ h ∈ handlers, ∀ tag ∈ h.tag, tag < p.tags.length) ∧ (handlers = [] ∨ delegate = none)
  | .tryTable _ clauses =>
    ∀ c ∈ clauses, Wire.CatchClause.takesTag c.kind = true → c.tag < p.tags.length
  | .raw i => i.Spelled ∧ ¬ i.Known
  | _ => True

/-- The tables and tags that an instruction names are among so many, and what is kept as it is
written is kept so again. -/
def Instr.Within (tables tags : Nat) : Instr → Prop
  | .callIndirect _ table => table < tables
  | .returnCallIndirect _ table => table < tables
  | .tableGet table => table < tables
  | .tableSet table => table < tables
  | .throw tag => tag < tags
  | .tryCatch _ handlers _ => ∀ h ∈ handlers, ∀ tag ∈ h.tag, tag < tags
  | .tryTable _ clauses => ∀ c ∈ clauses, Wire.CatchClause.takesTag c.kind = true → c.tag < tags
  | .raw i => i.Spelled ∧ ¬ i.Known
  | _ => True

namespace Emitting

open Emit

/-- Writing has numbers for what a program holds. -/
structure Covers (w : Emitting) (p : Program) : Prop where
  funcs : w.numbering.funcs.length = p.funcs.length
  tables : w.numbering.tables.length = p.tables.length
  tags : w.numbering.tags.length = p.tags.length
  slots : w.slots = w.body.slots

/-- How an instruction inside some labels can fail to be written. -/
inductive Refuses (w : Emitting) (labels : List SeqId) (i : Instr) : Failure → Prop
  | label {target : SeqId} {d : Diagnostic} : target ∈ i.targets → target ∉ labels →
      d.kind = .unresolvedLabel → Refuses w labels i (.fault (.diagnosed d))
  | var {var : LocalId} {d : Diagnostic} : i.localVar? = some var → var ∉ w.slots →
      Refuses w labels i (.fault (.diagnosed d))
  | operand {d : Diagnostic} : (∀ p, w.Covers p → ¬ i.Supplied p w.body) → d.kind ≠ .notFound →
      d.path ≠ w.path ["local"] → Refuses w labels i (.fault (.diagnosed d))
  | entity {a : Abort} : ¬ i.Within w.numbering.tables.length w.numbering.tags.length →
      Refuses w labels i (.abort a)

variable {w : Emitting} {labels : List SeqId} {F : Failure → Prop}

theorem depth_ends {target : SeqId} (hF : target ∉ labels → ∀ d : Diagnostic,
      d.kind = .unresolvedLabel → F (.fault (.diagnosed d))) :
    HostCatch.Turns F (w.depth labels target) fun _ => True := by
  unfold depth
  split
  next => exact .pure trivial
  next hfind =>
    refine .fail (hF (fun hmem => ?_) _ rfl)
    simpa using findIdx?_eq_none_iff.mp hfind target hmem

theorem slot_ends {var : LocalId}
    (hF : var ∉ w.slots → ∀ d : Diagnostic, F (.fault (.diagnosed d))) :
    HostCatch.Turns F (w.slot var) fun _ => True := by
  unfold slot
  split
  next => exact .pure trivial
  next hfind =>
    refine .fail (hF (fun hmem => ?_) _)
    simpa using findIdx?_eq_none_iff.mp hfind var (mem_reverse.mpr hmem)

theorem funcIndex_ends {func : FuncId} (hF : ¬ func < w.numbering.funcs.length → ∀ d : Diagnostic,
      d.kind ≠ .notFound → d.path ≠ w.path ["local"] → F (.fault (.diagnosed d))) :
    HostCatch.Turns F (w.funcIndex func) fun _ => True := by
  unfold funcIndex
  split
  next => exact .pure trivial
  next hge =>
    refine .fail (hF hge _ (by simp [Diagnostic.outOfBounds]) fun hpath => ?_)
    simp only [Diagnostic.outOfBounds, path, Diagnostic.numbered, List.cons.injEq, true_and,
      map_cons] at hpath
    exact absurd hpath.1 (by decide)

theorem index_ends {order : List Nat} {id : Nat} (hF : ¬ id < order.length → ∀ a, F (.abort a)) :
    HostCatch.Turns F (liftM (Numbering.index order id) : Except Failure UInt32) fun _ => True := by
  refine (HostCatch.Turns.attempt fun a ha => hF (fun hlt => ?_) a).mono fun _ _ => trivial
  rw [Numbering.index, if_pos hlt] at ha
  cases ha

theorem plain_ends {i : Instr} (hF : ∀ e, w.Refuses labels i e → F e)
    (hleaf : i.children = []) : HostCatch.Turns F (w.plain labels i) fun _ => True := by
  have hdepth {target : SeqId} (htarget : target ∈ i.targets) :
      HostCatch.Turns F (w.depth labels target) fun _ => True :=
    depth_ends fun hnone d hd => hF _ (.label htarget hnone hd)
  have hfunc {func : FuncId} (hfunc : ∀ p, i.Supplied p w.body → func < p.funcs.length) :
      HostCatch.Turns F (w.funcIndex func) fun _ => True :=
    funcIndex_ends fun hnone d hd hpath => hF _ <|
      .operand (fun p hw hsupplied => hnone (hw.funcs ▸ hfunc p hsupplied)) hd hpath
  have hslot {var : LocalId} (hvar : i.localVar? = some var) :
      HostCatch.Turns F (w.slot var) fun _ => True :=
    slot_ends fun hnone d => hF _ (.var hvar hnone)
  cases i with
  | block | loop | ifElse | tryCatch | tryTable => simp [Instr.children] at hleaf
  | br | brIf => exact (hdepth mem_cons_self).bind fun _ _ => .pure trivial
  | brTable targets last =>
    refine (HostCatch.Turns.mapM fun target h => hdepth (mem_append_left _ h)).bind fun _ _ => ?_
    exact (hdepth (mem_append_right _ mem_cons_self)).bind fun _ _ => .pure trivial
  | call | returnCall | refFunc => exact (hfunc fun _ h => h).bind fun _ _ => .pure trivial
  | callIndirect | returnCallIndirect | tableGet | tableSet | throw =>
    exact (index_ends fun hnone a => hF _ (.entity hnone)).bind fun _ _ => .pure trivial
  | localGet | localSet | localTee => exact (hslot rfl).bind fun _ _ => .pure trivial
  | const value =>
    cases value with
    | other kind =>
      refine .fail (hF _ (.operand (fun _ _ h => h kind rfl) (by simp [Diagnostic.unsupportedType]) ?_))
      intro hpath
      simp only [Diagnostic.unsupportedType, path, Diagnostic.numbered, List.cons.injEq, true_and,
        map_cons] at hpath
      exact absurd hpath.1 (by decide)
    | _ => exact .pure trivial
  | refNull | ret | unreachable | raw => exact .pure trivial

theorem blockType_ends (type : BlockType) : Emit.Turns F (w.blockType type) fun _ => True := by
  cases type with
  | empty | multi => exact .pure trivial
  | single result =>
    simp only [blockType]
    split
    next =>
      split
      next => exact .pure trivial
      next =>
        refine Emit.Turns.bind (P := fun _ => True) (fun _ => .pure trivial) fun extra _ => ?_
        split
        next => exact fun _ => .pure trivial
        next => exact .pure trivial
    next => exact .pure trivial

theorem clause_ends {c : Clause} (hlabel : c.label ∉ labels → ∀ d : Diagnostic,
      d.kind = .unresolvedLabel → F (.fault (.diagnosed d)))
    (htag : Wire.CatchClause.takesTag c.kind = true → ¬ c.tag < w.numbering.tags.length →
      ∀ a, F (.abort a)) :
    HostCatch.Turns F (w.clause labels c) fun _ => True := by
  refine (depth_ends hlabel).bind fun _ _ => ?_
  dsimp only
  split
  next htakes => exact (index_ends (htag htakes)).bind fun _ _ => .pure trivial
  next => exact (HostCatch.Turns.liftAbort rfl).bind fun _ _ => .pure trivial

/-- One instruction is refused only for what it names, if nested code is. -/
theorem instr_ends {nested : SeqId → Emit (List Wire.Instr)} {i : Instr}
    (hF : ∀ e, w.Refuses labels i e → F e) (hnested : ∀ child ∈ i.children,
      (∃ s, w.body.seqs[child]? = some s) ∧ Emit.Turns F (nested child) fun _ => True) :
    Emit.Turns F (w.instr nested labels i) fun _ => True := by
  have hopen {id : SeqId} (hid : id ∈ i.children) {f : Seq → Int32 → Emit (List Wire.Instr)}
      (hf : ∀ s type, Emit.Turns F (f s type) fun _ => True) : Emit.Turns F (do
        let s ← (w.body.seq id : Emit Seq)
        let type ← w.blockType s.type
        f s type) fun _ => True := by
    obtain ⟨⟨s, hs⟩, -⟩ := hnested id hid
    refine (Emit.Turns.liftAbort (Body.seq_eq_ok_iff.mpr hs)).bind fun s _ => ?_
    exact (blockType_ends s.type).bind fun type _ => hf s type
  cases i with
  | block id | loop id =>
    refine hopen mem_cons_self fun s type => ?_
    exact (hnested id mem_cons_self).2.bind fun _ _ => .pure trivial
  | ifElse consequent alternative =>
    refine hopen mem_cons_self fun s type => ?_
    refine (hnested consequent mem_cons_self).2.bind fun first _ => ?_
    obtain ⟨⟨t, ht⟩, hinner⟩ := hnested alternative (by simp [Instr.children])
    refine (Emit.Turns.liftAbort (Body.seq_eq_ok_iff.mpr ht)).bind fun other _ => ?_
    dsimp only
    split
    next => exact .pure trivial
    next => exact hinner.bind fun _ _ => .pure trivial
  | tryCatch id handlers delegate =>
    refine hopen mem_cons_self fun s type => ?_
    refine (hnested id mem_cons_self).2.bind fun inner _ => ?_
    refine (Emit.Turns.mapM (R := fun _ _ => True) fun h hh => ?_).bind fun _ _ => .pure trivial
    have hhandler := (hnested h.seq (mem_cons_of_mem _ (mem_map_of_mem hh))).2
    dsimp only
    cases htag : h.tag with
    | none => exact hhandler.bind fun _ _ => .pure trivial
    | some tag =>
      refine (Emit.Turns.lift (index_ends fun hnone a => ?_)).bind fun _ _ =>
        hhandler.bind fun _ _ => .pure trivial
      exact hF _ (.entity fun hall => hnone (hall h hh tag htag))
  | tryTable id clauses =>
    have hclause : ∀ c ∈ clauses, HostCatch.Turns F (w.clause labels c) fun _ => True := by
      refine fun c hc => clause_ends (fun hnone d hd => ?_) fun htakes hnone a => ?_
      · exact hF _ (.label (mem_map_of_mem hc) hnone hd)
      · exact hF _ (.entity fun hall => hnone (hall c hc htakes))
    refine hopen mem_cons_self fun s type => ?_
    refine (Emit.Turns.lift (HostCatch.Turns.mapM hclause)).bind fun _ _ => ?_
    exact (hnested id mem_cons_self).2.bind fun _ _ => .pure trivial
  | _ => exact (Emit.Turns.lift (plain_ends hF rfl)).bind fun _ _ => .pure trivial

/-- Code is refused only for what an instruction in it names. -/
theorem code_ends {bound : Nat} {id : SeqId} {visits : List Visit}
    (hwalk : w.body.walkSeq bound id = .ok visits)
    (hF : ∀ v ∈ visits, ∀ labels' e, w.body.PathFrom id labels v.seq labels' →
      w.Refuses labels' v.instr e → F e) :
    Emit.Turns F (w.code bound labels id) fun _ => True := by
  induction bound generalizing id visits labels with
  | zero => cases hwalk
  | succ bound ih =>
    obtain ⟨s, parts, hs, rfl, hparts⟩ := Body.walkSeq_succ_eq_ok_iff.mp hwalk
    have hseq : w.seq id = .ok s := by rw [seq, hs]
    rw [code, hseq]
    refine (Emit.Turns.mapM (R := fun _ _ => True) fun i hi => ?_).bind fun _ _ => .pure trivial
    obtain ⟨index, hindex⟩ := getElem?_of_mem hi
    obtain ⟨part, hpart, nested, hnested, rfl⟩ :=
      forall₂_mem_left hparts (mk_mem_zipIdx_iff_getElem?.mpr hindex)
    have hmem {v : Visit} (hv : v ∈ ⟨id, index, i⟩ :: nested.flatten) : v ∈ parts.flatten :=
      mem_flatten.mpr ⟨_, hpart, hv⟩
    refine instr_ends (fun e => hF _ (hmem mem_cons_self) labels e (.refl id labels))
      fun child hchild => ?_
    obtain ⟨vs, hvs, hchildWalk⟩ := forall₂_mem_left hnested hchild
    refine ⟨Body.seq_of_walkSeq hchildWalk, ih hchildWalk fun v hv labels' e hpath => ?_⟩
    rw [← Body.instr?_of_seq hs] at hindex
    exact hF v (hmem (mem_cons_of_mem _ (mem_flatten.mpr ⟨vs, hvs, hv⟩))) labels' e
      (.step hindex hchild hpath)

section Written

variable {types : List Signature}

variable {i : Instr} {N : SeqId → List Wire.Instr → Prop} {part : List Wire.Instr}

theorem mem_of_depth {target : SeqId} {k : UInt32} (h : w.depth labels target = .ok k) :
    target ∈ labels := by
  obtain ⟨_, -, hget⟩ := depth_eq_ok h
  exact mem_of_getElem? hget

theorem Stands.enclosed {x : Wire.Instr} (h : w.Stands labels i x) :
    ∀ target ∈ i.targets, target ∈ labels := by
  cases h with
  | br hk | brIf hk => exact forall_mem_singleton.mpr (mem_of_depth hk)
  | brTable hks hk =>
    refine forall_mem_append.mpr ⟨fun target htarget => ?_,
      forall_mem_singleton.mpr (mem_of_depth hk)⟩
    obtain ⟨_, -, htarget⟩ := forall₂_mem_left hks htarget
    exact mem_of_depth htarget
  | _ => exact forall_mem_nil _

theorem Shapes.enclosed (h : w.Shapes types N labels i part) :
    ∀ target ∈ i.targets, target ∈ labels := by
  cases h with
  | plain hx => exact hx.enclosed
  | tryTable _ hcatches _ =>
    refine forall_mem_map.mpr fun c hc => ?_
    obtain ⟨_, -, hclause⟩ := forall₂_mem_left hcatches hc
    exact mem_of_depth hclause.label
  | _ => exact forall_mem_nil _

theorem Shapes.children (h : w.Shapes types N labels i part) {ok : SeqId → Prop}
    (hempty : ∀ id s, w.body.seqs[id]? = some s → s.instrs = [] → ok id)
    (hnested : ∀ id ws, N id ws → ok id) : ∀ child ∈ i.children, ok child := by
  cases h with
  | plain hx => simp [hx.children]
  | block _ hws | loop _ hws | tryTable _ _ hws =>
    exact forall_mem_singleton.mpr (hnested _ _ hws)
  | ifEmpty _ hfirst hs hnil =>
    exact forall_mem_cons.mpr ⟨hnested _ _ hfirst, forall_mem_singleton.mpr (hempty _ _ hs hnil)⟩
  | ifElse _ hfirst hsecond =>
    exact forall_mem_cons.mpr ⟨hnested _ _ hfirst, forall_mem_singleton.mpr (hnested _ _ hsecond)⟩
  | tryCatch _ _ hws hparts =>
    refine forall_mem_cons.mpr ⟨hnested _ _ hws, forall_mem_map.mpr fun h hh => ?_⟩
    obtain ⟨part, -, first, ws, -, hws, -⟩ := forall₂_mem_left hparts hh
    exact hnested _ _ hws

theorem Codes.enclosed {bound : Nat} {id : SeqId} {ws : List Wire.Instr}
    (h : w.Codes types bound labels id ws) : w.body.EnclosedFrom labels id := by
  induction bound generalizing labels id ws with
  | zero => exact h.elim
  | succ bound ih =>
    obtain ⟨s, parts, hs, hparts, rfl⟩ := h
    refine Body.enclosedFrom_of_seq hs fun i hi => ?_
    obtain ⟨part, -, hpart⟩ := forall₂_mem_left hparts hi
    refine ⟨hpart.enclosed, hpart.children (fun child t ht hnil => ?_) fun child _ hws => ih hws⟩
    exact Body.enclosedFrom_of_seq ht (by simp [hnil])

/-- What can fail to be written as bytes is kept as it was written. -/
theorem Begins.writable {x : Wire.Instr} (h : w.Begins types i x) : x.Writable ∨ i = .raw x := by
  cases h with
  | construct _ _ _ _ _ hx => exact .inl hx
  | plain hx =>
    cases hx with
    | raw => exact .inr rfl
    | _ => exact .inl ⟨_, rfl⟩

end Written

end Emitting

namespace Program

variable {p : Program}

theorem Paired.funcs_length (h : p.Paired) : p.numbering.funcs.length = p.funcs.length := by
  rw [numbering_funcs, h.funcs.order_perm.length_eq, length_range]

theorem Paired.tables_length (h : p.Paired) : p.numbering.tables.length = p.tables.length :=
  h.tables.order_perm.length_eq.trans length_range

theorem Paired.tags_length (h : p.Paired) : p.numbering.tags.length = p.tags.length :=
  h.tags.order_perm.length_eq.trans length_range

theorem Paired.covers (h : p.Paired) (id : FuncId) (b : Body) :
    Emitting.Covers ⟨p.numbering, p.types, id, b, b.slots⟩ p where
  funcs := h.funcs_length
  tables := h.tables_length
  tags := h.tags_length
  slots := rfl

/-- A body that can be walked is written unless an instruction in it refuses, or a variable of it is
not there. -/
theorem emitBody_ends {numbering : Numbering} {F : Failure → Prop} {id : FuncId} {b : Body}
    {visits : List Visit} (hwalk : b.walk = .ok visits)
    (hvars : ∀ var ∈ b.declared, p.locals[var]? = none →
      ∀ d : Diagnostic, F (.fault (.diagnosed d)))
    (hF : ∀ v ∈ visits, ∀ labels e, b.Path v.seq labels →
      Emitting.Refuses ⟨numbering, p.types, id, b, b.slots⟩ labels v.instr e → F e) :
    Emit.Turns F (p.emitBody numbering id b) fun _ => b.Enclosed := by
  have htypes : Turns F (p.declaredTypesOf ⟨numbering, p.types, id, b, b.slots⟩) fun _ => True := by
    refine (Turns.mapM (R := fun _ _ => True) fun var hvar => ?_).mono fun _ _ => trivial
    split
    next => exact .pure trivial
    next hnone => exact .fail (hvars var hvar hnone _)
  refine (Emit.Turns.lift htypes).bind fun types _ => ?_
  have hcode := Emitting.code_ends (w := ⟨numbering, p.types, id, b, b.slots⟩) hwalk
    fun v hv labels e hpath => hF v hv labels e (Body.path_iff.mpr hpath)
  have hcode := hcode.of_result (Q := fun instrs => ∃ types, Emitting.Codes _ types _ _ _ instrs)
    fun _ _ _ h => ⟨_, Emitting.codes_of_run h prefix_rfl⟩
  refine hcode.bind fun instrs hwritten => ?_
  obtain ⟨written, hinstrs⟩ := hwritten
  have henclosed := Body.enclosed_iff.mpr hinstrs.enclosed
  refine Emit.Turns.bind (P := fun _ => True) (.lift ?_) fun _ _ => .pure henclosed
  by_cases hall : ∀ x ∈ instrs ++ [Emitting.close], x.Writable
  · obtain ⟨bytes, hbytes⟩ := Wire.encodeInstrs_of_writable hall
    exact (Turns.liftAbort hbytes).mono fun _ _ => trivial
  · obtain ⟨x, hx, hnot⟩ : ∃ x ∈ instrs ++ [Emitting.close], ¬ x.Writable := by
      simpa only [not_forall, exists_prop] using hall
    -- what is not writable is kept as it was written in some place of the body
    obtain ⟨v, hv, hraw⟩ : ∃ v ∈ visits, v.instr = .raw x := by
      obtain ⟨_, hwalk', hlists⟩ := hinstrs.lists
      cases hwalk.symm.trans hwalk'
      have hlists := hlists.append (.mark .close .nil)
      rcases hlists.of_mem hx with hmark | ⟨i, hi, hbegins⟩
      · exact absurd hmark.writable hnot
      · rw [append_nil] at hi
        obtain ⟨v, hv, rfl⟩ := mem_map.mp hi
        exact ⟨v, hv, hbegins.writable.resolve_left hnot⟩
    obtain ⟨labels, hpath⟩ := (Body.walkSeq_visit hwalk hv).1.path .entry
    refine (Turns.attempt fun a _ => hF v hv labels _ hpath (.entity ?_)).mono fun _ _ => trivial
    rw [hraw]
    exact fun hwithin => hnot hwithin.1.writable

end Program

end HostCatch
