import HostCatch.Proofs.Guard.Building
import HostCatch.Proofs.Guard.Pass

namespace HostCatch

open List

theorem defaults_exist {types : List ValType} (hknown : ∀ v ∈ types, v.IsKnown)
    (hvector : .v128 ∉ types) : ∃ defaults, types.mapM defaultValue = .ok defaults := by
  obtain ⟨defaults, hdefaults⟩ : ∃ defaults,
      Forall₂ (fun type i => defaultValue type = .ok i) types defaults := by
    refine exists_forall₂ fun type htype => ?_
    cases type with
    | v128 => exact absurd htype hvector
    | unknown number => exact absurd rfl (hknown _ htype number)
    | _ => exact ⟨_, rfl⟩
  exact ⟨defaults, mapM_eq_ok_iff.mpr hdefaults⟩

namespace Program

/-- How the flagged imports get their wrappers: those that exist stay, and others are made one after
another. -/
inductive Wraps (strategy : Strategy) (tag : TagId) (handles : Handles) (existing : Targets) :
    List FuncId → Program → Targets → Program → Prop
  | nil (p) : Wraps strategy tag handles existing [] p [] p
  | reused {id w ids p targets q} : existing.get? id = some w →
      Wraps strategy tag handles existing ids p targets q →
      Wraps strategy tag handles existing (id :: ids) p ((id, w) :: targets) q
  | made {id ids p f sig defaults types seqs targets q} : existing.get? id = none →
      p.funcs[id]? = some f → p.types[f.type]? = some sig →
      sig.results.mapM defaultValue = .ok defaults →
      Makes p.types f.type (p.recipe id sig tag handles) defaults strategy types seqs →
      Wraps strategy tag handles existing ids
        (p.withWrapper id f sig (p.recipe id sig tag handles) types seqs) targets q →
      Wraps strategy tag handles existing (id :: ids) p ((id, p.funcs.length) :: targets) q

variable {strategy : Strategy} {tag : TagId} {handles : Handles} {existing targets : Targets}
variable {ids : List FuncId} {p q : Program} {r : Recipe} {defaults : List Instr}

/-- Imports are wrapped one by one, in order. -/
theorem wrapAll_eq_ok_iff : wrapAll strategy tag handles existing ids p = .ok (targets, q) ↔
      Wraps strategy tag handles existing ids p targets q := by
  constructor
  · intro h
    induction ids generalizing p targets with
    | nil =>
      cases h
      exact .nil _
    | cons id ids ih =>
      unfold wrapAll at h
      split at h
      next w hw =>
        obtain ⟨⟨rest, _⟩, hrest, h⟩ := of_bind h
        cases h
        exact .reused hw (ih hrest)
      next hnone =>
        split at h
        next => cases h
        next f hf =>
          obtain ⟨⟨w, _⟩, hwrapper, h⟩ := of_bind h
          obtain ⟨⟨rest, _⟩, hrest, h⟩ := of_bind h
          cases h
          obtain ⟨sig, defaults, types, seqs, hsig, hdefaults, hmakes, rfl, rfl⟩ :=
            addWrapper_eq_ok hwrapper
          exact .made hnone hf hsig hdefaults hmakes (ih hrest)
  · intro h
    induction h with
    | nil => rfl
    | reused hw _ ih =>
      rw [wrapAll, hw]
      exact bind_eq_ok_iff.mpr ⟨_, ih, rfl⟩
    | made hnone hf hsig hdefaults hmakes _ ih =>
      rw [wrapAll, hnone, hf]
      exact bind_eq_ok_iff.mpr ⟨_, addWrapper_eq hsig hdefaults hmakes, bind_eq_ok_iff.mpr ⟨_, ih, rfl⟩⟩

theorem Wraps.keys (h : Wraps strategy tag handles existing ids p targets q) :
    targets.map Prod.fst = ids := by
  induction h with
  | nil => rfl
  | reused _ _ ih => rw [map_cons, ih]
  | made _ _ _ _ _ _ ih => rw [map_cons, ih]

/-- The new wrappers stand in a row behind the functions. -/
theorem Wraps.consecutive (h : Wraps strategy tag handles existing ids p targets q) {made : Targets}
    (hmade : targets.filter (fun e => (existing.get? e.1).isNone) = made) :
    made.map Prod.snd = List.range' p.funcs.length made.length ∧
      q.funcs.length = p.funcs.length + made.length := by
  induction h generalizing made with
  | nil =>
    subst hmade
    exact ⟨rfl, rfl⟩
  | reused hw _ ih =>
    rw [filter_cons_of_neg (by simp [hw])] at hmade
    exact ih hmade
  | made hnone _ _ _ _ _ ih =>
    rw [filter_cons_of_pos (by simp [hnone])] at hmade
    obtain ⟨hsnd, hlength⟩ := ih rfl
    rw [show (withWrapper _ _ _ _ _ _ _).funcs.length = _ from length_append] at hsnd hlength
    subst hmade
    rw [map_cons, length_cons, range'_succ, hsnd, hlength]
    exact ⟨rfl, by rw [length_singleton]; omega⟩

/-- The second program has types, local variables and functions behind those of the first. -/
def Gains (p q : Program) : Prop :=
  ∃ types locals funcs, q = { p with
    types := p.types ++ types, locals := p.locals ++ locals, funcs := p.funcs ++ funcs }

namespace Gains

theorem refl (p : Program) : p.Gains p :=
  ⟨[], [], [], by simp⟩

theorem trans {s : Program} (h : p.Gains q) (h' : q.Gains s) : p.Gains s := by
  obtain ⟨types, locals, funcs, rfl⟩ := h
  obtain ⟨types', locals', funcs', rfl⟩ := h'
  exact ⟨types ++ types', locals ++ locals', funcs ++ funcs', by simp⟩

variable (h : p.Gains q)

include h

theorem types : p.types <+: q.types := by
  obtain ⟨types, locals, funcs, rfl⟩ := h
  exact prefix_append _ _

theorem locals : p.locals <+: q.locals := by
  obtain ⟨types, locals, funcs, rfl⟩ := h
  exact prefix_append _ _

theorem funcs : p.funcs <+: q.funcs := by
  obtain ⟨types, locals, funcs, rfl⟩ := h
  exact prefix_append _ _

theorem imports : q.imports = p.imports := by
  obtain ⟨types, locals, funcs, rfl⟩ := h
  rfl

end Gains

theorem withWrapper_gains (p : Program) (id : FuncId) (f : Function) (sig : Signature) (r : Recipe)
    (types : List Signature) (seqs : List Seq) : p.Gains (p.withWrapper id f sig r types seqs) :=
  ⟨types, sig.params ++ [.i32, .externRef], [p.wrapper id f r seqs], by simp [withWrapper]⟩

/-- The wrapper `w` of an import was made on the way from `p` to `q`, when the program was `now`. -/
structure Made (strategy : Strategy) (tag : TagId) (handles : Handles) (p q : Program) (id w : FuncId)
    (now : Program) (f : Function) (sig : Signature) (defaults : List Instr)
    (types : List Signature) (seqs : List Seq) : Prop where
  before : p.Gains now
  behind : w = now.funcs.length
  callee : now.funcs[id]? = some f
  type : now.types[f.type]? = some sig
  values : sig.results.mapM defaultValue = .ok defaults
  makes : Makes now.types f.type (now.recipe id sig tag handles) defaults strategy types seqs
  after : (now.withWrapper id f sig (now.recipe id sig tag handles) types seqs).Gains q

theorem Wraps.gains (h : Wraps strategy tag handles existing ids p targets q) : p.Gains q := by
  induction h with
  | nil p => exact .refl p
  | reused _ _ ih => exact ih
  | made _ _ _ _ _ _ ih => exact (withWrapper_gains ..).trans ih

/-- Each target was there, or it was made at some point. -/
theorem Wraps.each (h : Wraps strategy tag handles existing ids p targets q) {id w : FuncId}
    (hw : (id, w) ∈ targets) : existing.get? id = some w ∨ (existing.get? id = none ∧
      ∃ now f sig defaults types seqs,
        Made strategy tag handles p q id w now f sig defaults types seqs) := by
  induction h with
  | nil => cases hw
  | reused hold _ ih =>
    rcases mem_cons.mp hw with hw | hw
    · cases hw
      exact .inl hold
    · exact ih hw
  | @made _ _ p _ _ _ _ _ _ _ hnone hf hsig hdefaults hmakes hrest ih =>
    rcases mem_cons.mp hw with hw | hw
    · cases hw
      exact .inr ⟨hnone, p, _, _, _, _, _, .refl p, rfl, hf, hsig, hdefaults, hmakes, hrest.gains⟩
    · refine (ih hw).imp_right fun hmade => ⟨hmade.1, ?_⟩
      obtain ⟨-, now, f, sig, defaults, types, seqs, hmade⟩ := hmade
      exact ⟨now, f, sig, defaults, types, seqs,
        { hmade with before := (withWrapper_gains ..).trans hmade.before }⟩

namespace Made

variable {id w : FuncId} {now : Program} {f : Function} {sig : Signature} {types : List Signature}
  {seqs : List Seq}

theorem found (h : Made strategy tag handles p q id w now f sig defaults types seqs) :
    q.funcs[w]? = some (now.wrapper id f (now.recipe id sig tag handles) seqs) := by
  refine getElem?_of_isPrefix h.after.funcs ?_
  rw [h.behind]
  exact getElem?_concat_length

/-- The import that a wrapper was made for, in the program from before. -/
theorem source (h : Made strategy tag handles p q id w now f sig defaults types seqs)
    (hid : p.Wrappable id) : p.funcs[id]? = some f ∧ p.types[f.type]? = some sig := by
  obtain ⟨g, hg, hlt⟩ := hid
  cases (getElem?_of_isPrefix h.before.funcs hg).symm.trans h.callee
  have htype := getElem?_eq_getElem hlt
  cases (getElem?_of_isPrefix h.before.types htype).symm.trans h.type
  exact ⟨hg, htype⟩

theorem params (h : Made strategy tag handles p q id w now f sig defaults types seqs) :
    (now.recipe id sig tag handles).params.map (q.locals[·]?) = sig.params.map some := by
  obtain ⟨_, locals, _, rfl⟩ := h.after
  simpa [recipe, withWrapper] using
    range'_locals now.locals sig.params (.i32 :: .externRef :: locals)

theorem newWrapper (h : Made strategy tag handles p q id w now f sig defaults types seqs)
    (hid : p.Wrappable id) : NewWrapper strategy tag handles p q id w
      (now.wrapper id f (now.recipe id sig tag handles) seqs) := by
  obtain ⟨hf, hsig⟩ := h.source hid
  refine ⟨?_, h.found, f, sig, now.recipe id sig tag handles, hf, hsig, ?_, rfl,
    h.makes.madeBy h.values, rfl, rfl, rfl, rfl, h.params⟩
  · rw [h.behind]
    exact h.before.funcs.length_le
  · exact wrapperName_congr f (importOf?_congr (h.callee.trans hf.symm) h.before.imports)

end Made

/-- Each function that is added was made for a target. -/
theorem Wraps.added (h : Wraps strategy tag handles existing ids p targets q) :
    ∃ types locals funcs, q = { p with
        types := p.types ++ types, locals := p.locals ++ locals, funcs := p.funcs ++ funcs } ∧
      ∀ n g, funcs[n]? = some g → ∃ id, (id, p.funcs.length + n) ∈ targets ∧
        existing.get? id = none ∧ ∃ now f sig defaults types seqs,
          Made strategy tag handles p q id (p.funcs.length + n) now f sig defaults types seqs ∧
          g = now.wrapper id f (now.recipe id sig tag handles) seqs := by
  obtain ⟨types, locals, funcs, rfl⟩ := h.gains
  refine ⟨types, locals, funcs, rfl, fun n g hg => ?_⟩
  obtain ⟨hsnd, hlength⟩ := h.consecutive rfl
  rw [length_append, Nat.add_left_cancel_iff] at hlength
  have hmem : p.funcs.length + n ∈ List.range' p.funcs.length
      (targets.filter fun e => (existing.get? e.1).isNone).length := by
    rw [← hlength, mem_range'_1]
    exact ⟨Nat.le_add_right _ _, Nat.add_lt_add_left (lt_of_getElem? hg) _⟩
  rw [← hsnd] at hmem
  obtain ⟨⟨id, _⟩, he, rfl⟩ := mem_map.mp hmem
  obtain ⟨he, hnone⟩ := mem_filter.mp he
  rcases h.each he with hold | ⟨hnone, now, f, sig, defaults, types', seqs, hmade⟩
  · rw [hold] at hnone
    cases hnone
  · refine ⟨id, he, hnone, now, f, sig, defaults, types', seqs, hmade, ?_⟩
    have hfound := hmade.found
    rw [getElem?_append_right (Nat.le_add_right _ _), Nat.add_sub_cancel_left, hg] at hfound
    exact Option.some.inj hfound

/-- What is added are the new wrappers. -/
theorem Wraps.newWrappers (h : Wraps strategy tag handles existing ids p targets q)
    (hids : ∀ id ∈ ids, p.Wrappable id) :
    (∃ types locals funcs, q = { p with
        types := p.types ++ types, locals := p.locals ++ locals, funcs := p.funcs ++ funcs } ∧
        ∀ n g, funcs[n]? = some g →
          ∃ id, (id, p.funcs.length + n) ∈ targets ∧ existing.get? id = none ∧
            NewWrapper strategy tag handles p q id (p.funcs.length + n) g) ∧
      ∀ id w, (id, w) ∈ targets → existing.get? id = some w ∨
        (existing.get? id = none ∧ ∃ g, NewWrapper strategy tag handles p q id w g) := by
  have hwrappable : ∀ {id w}, (id, w) ∈ targets → p.Wrappable id := fun hw =>
    hids _ (h.keys ▸ mem_map_of_mem hw)
  refine ⟨?_, fun id w hw => ?_⟩
  · obtain ⟨types, locals, funcs, hq, hadded⟩ := h.added
    refine ⟨types, locals, funcs, hq, fun n g hg => ?_⟩
    obtain ⟨id, hmem, hnone, now, f, sig, defaults, types', seqs, hmade, rfl⟩ := hadded n g hg
    exact ⟨id, hmem, hnone, hmade.newWrapper (hwrappable hmem)⟩
  · rcases h.each hw with hold | ⟨hnone, now, f, sig, defaults, types, seqs, hmade⟩
    · exact .inl hold
    · exact .inr ⟨hnone, _, hmade.newWrapper (hwrappable hw)⟩

theorem handler_flatMap_children (h : r.results.mapM defaultValue = .ok defaults) :
    (r.keeping ++ defaults).flatMap Instr.children = [] :=
  flatMap_eq_nil_iff.mpr fun _ hi => (Recipe.handler_leaf h hi).children

theorem forwarding_flatMap_children (r : Recipe) : r.forwarding.flatMap Instr.children = [] :=
  flatMap_eq_nil_iff.mpr fun _ hi => (Recipe.forwarding_leaf hi).children

theorem modernSeqs_nested (h : r.results.mapM defaultValue = .ok defaults) (type : TypeId) :
    Nested (r.modernSeqs type defaults) := by
  have hchildren : (r.modernSeqs type defaults).map Seq.children = [[1], [2], []] := by
    simp [Recipe.modernSeqs, Seq.children, Instr.children, forwarding_flatMap_children,
      handler_flatMap_children h]
  exact nested_of_children hchildren (by decide) (by decide)

theorem legacySeqs_nested (h : r.results.mapM defaultValue = .ok defaults)
    (type handlerType : TypeId) (tried : BlockType) :
    Nested (r.legacySeqs type handlerType tried defaults) := by
  have hchildren : (r.legacySeqs type handlerType tried defaults).map Seq.children =
      [[2, 1], [], []] := by
    simp [Recipe.legacySeqs, Seq.children, Instr.children, forwarding_flatMap_children,
      handler_flatMap_children h]
  exact nested_of_children hchildren (by decide) (by decide)

theorem Makes.nested {types more : List Signature} {type : TypeId} {seqs : List Seq}
    (hdefaults : r.results.mapM defaultValue = .ok defaults)
    (h : Makes types type r defaults strategy more seqs) : Nested seqs := by
  cases h with
  | modern => exact modernSeqs_nested hdefaults type
  | legacy => exact legacySeqs_nested hdefaults type _ _

/-- Every body can be walked to its end. -/
def Walkable (p : Program) : Prop :=
  ∀ f ∈ p.funcs, ∀ b, f.kind = .defined b → ∃ visits, b.walk = .ok visits

theorem WellFormed.walkable (hp : p.WellFormed) : p.Walkable := by
  intro f hf b hkind
  obtain ⟨visits, hvisits, -⟩ := hp.bodies f hf b hkind
  exact ⟨visits, hvisits⟩

theorem Wraps.walkable (h : Wraps strategy tag handles existing ids p targets q) (hp : p.Walkable) :
    q.Walkable := by
  obtain ⟨types, locals, funcs, rfl, hadded⟩ := h.added
  intro g hg b hkind
  rcases mem_append.mp hg with hg | hg
  · exact hp g hg b hkind
  · obtain ⟨n, hn⟩ := getElem?_of_mem hg
    obtain ⟨id, -, -, now, f, sig, defaults, types', seqs, hmade, rfl⟩ := hadded n g hn
    cases hkind
    have hnested := hmade.makes.nested hmade.values
    obtain ⟨visits, hvisits, -⟩ := Body.isTree_of_nested (b := ⟨_, _, seqs, 0⟩) hnested rfl
    exact ⟨visits, hvisits⟩

/-- Wrapping succeeds where all results have defaults. -/
theorem Wraps.exists (hstrategy : strategy = .legacy ∨ strategy = .modern)
    (h : ∀ id ∈ ids, ∃ f sig defaults, p.funcs[id]? = some f ∧ p.types[f.type]? = some sig ∧
      sig.results.mapM defaultValue = .ok defaults) :
    ∃ targets q, Wraps strategy tag handles existing ids p targets q := by
  induction ids generalizing p with
  | nil => exact ⟨[], p, .nil p⟩
  | cons id ids ih =>
    cases hid : existing.get? id with
    | some w =>
      obtain ⟨targets, q, hrest⟩ := ih fun id' hid' => h id' (mem_cons_of_mem id hid')
      exact ⟨_, q, .reused hid hrest⟩
    | none =>
      obtain ⟨f, sig, defaults, hf, hsig, hdefaults⟩ := h id mem_cons_self
      obtain ⟨types, seqs, hmakes⟩ :=
        Makes.exists p.types f.type (p.recipe id sig tag handles) defaults hstrategy
      have hgrown : ∀ id' ∈ ids, ∃ f' sig' defaults',
          (p.withWrapper id f sig (p.recipe id sig tag handles) types seqs).funcs[id']? = some f' ∧
          (p.withWrapper id f sig (p.recipe id sig tag handles) types seqs).types[f'.type]? = some sig' ∧
          sig'.results.mapM defaultValue = .ok defaults' := by
        intro id' hid'
        obtain ⟨f', sig', defaults', hf', hsig', hdefaults'⟩ := h id' (mem_cons_of_mem id hid')
        refine ⟨f', sig', defaults', ?_, ?_, hdefaults'⟩
        · exact (getElem?_append_left (lt_of_getElem? hf')).trans hf'
        · exact (getElem?_append_left (lt_of_getElem? hsig')).trans hsig'
      obtain ⟨targets, q, hrest⟩ := ih hgrown
      exact ⟨_, q, .made hid hf hsig hdefaults hmakes hrest⟩

theorem existingWrappers_exists (h : p.Walkable) : ∃ existing, p.existingWrappers = .ok existing := by
  refine foldlM_exists (motive := fun _ => True) trivial ?_
  rintro ⟨f, id⟩ hf t -
  have hwrapped : ∃ wrapped, p.wrappedImports f = .ok wrapped := by
    unfold wrappedImports
    split
    next => exact ⟨[], rfl⟩
    next b hb =>
      split
      next =>
        obtain ⟨visits, hvisits⟩ :=
          h f (fst_mem_of_mem_zipIdx hf) b (Function.body?_eq_some_iff.mp hb)
        exact ⟨_, by rw [hvisits]; rfl⟩
      next => exact ⟨[], rfl⟩
  obtain ⟨wrapped, hwrapped⟩ := hwrapped
  exact ⟨_, bind_eq_ok_iff.mpr ⟨wrapped, hwrapped, rfl⟩, trivial⟩

theorem retargetCalls_exists (h : p.Walkable) (targets : Targets) :
    ∃ result, p.retargetCalls targets = .ok result := by
  unfold retargetCalls
  split
  next => exact ⟨_, rfl⟩
  next =>
    obtain ⟨results, hresults⟩ : ∃ results, Forall₂
        (fun (entry : Function × Nat) result => retargetFunction targets entry.2 entry.1 = .ok result)
        p.funcs.zipIdx results := by
      refine exists_forall₂ ?_
      rintro ⟨f, id⟩ hf
      unfold retargetFunction
      split
      next => exact ⟨_, rfl⟩
      next b hkind =>
        split
        next => exact ⟨_, rfl⟩
        next =>
          obtain ⟨visits, hvisits⟩ := h f (fst_mem_of_mem_zipIdx hf) b hkind
          exact ⟨_, by rw [Body.retarget, hvisits]; rfl⟩
    exact ⟨_, bind_eq_ok_iff.mpr ⟨results, mapM_eq_ok_iff.mpr hresults, rfl⟩⟩

end Program

end HostCatch
