import Mathlib.Data.List.Induction
import HostCatch.Proofs.Guard.Guarded
import HostCatch.Proofs.Guard.Wrapping

namespace HostCatch

open List

namespace Targets

@[simp] theorem get?_insert (t : Targets) (source target func : FuncId) :
    (t.insert source target).get? func = if func = source then some target else t.get? func := by
  unfold insert get?
  rw [find?_append]
  by_cases h : func = source
  · subst h
    have hnone : (t.filter (·.1 ≠ func)).find? (·.1 = func) = none := by
      simp
    rw [hnone, if_pos rfl]
    simp
  · have hsame : (t.filter (·.1 ≠ source)).find? (·.1 = func) = t.find? (·.1 = func) := by
      rw [find?_filter]
      congr 1
      funext pair
      by_cases hpair : pair.1 = func
      · simp [hpair, h]
      · simp [hpair]
    have hlast : [(source, target)].find? (·.1 = func) = none := by
      simp [Ne.symm h]
    rw [hsame, hlast, Option.or_none, if_neg h]

theorem get?_foldl_insert (ids : List FuncId) (target func : FuncId) (t : Targets) :
    (ids.foldl (fun t id => t.insert id target) t).get? func =
      if func ∈ ids then some target else t.get? func := by
  induction ids generalizing t with
  | nil => simp
  | cons id ids ih =>
    rw [foldl_cons, ih, get?_insert]
    by_cases hrest : func ∈ ids <;> by_cases hid : func = id <;> simp [hrest, hid]

end Targets

/-- A body has a direct call of a function that can be reached. -/
def Body.Calls (b : Body) (func : FuncId) : Prop :=
  ∃ seq index, b.Reaches seq ∧ b.instr? seq index = some (.call func)

namespace Program

variable {p : Program}

/-- A function is known as a wrapper of an import, by its name and by a call. -/
def IsWrapper (p : Program) (f : Function) (id : FuncId) : Prop :=
  ∃ body callee, f.kind = .defined body ∧ body.Calls id ∧ p.funcs[id]? = some callee ∧
    callee.isImported = true ∧ f.name = p.wrapperName id callee

/-- The last function that is known as a wrapper of an import. -/
def Recognizes (p : Program) (id w : FuncId) : Prop :=
  (∃ f, p.funcs[w]? = some f ∧ p.IsWrapper f id) ∧
    ∀ (w' : FuncId) f, w < w' → p.funcs[w']? = some f → ¬ p.IsWrapper f id

theorem wrappedBy?_eq_some_iff {name : Bytes} {i : Instr} {id : FuncId} :
    p.wrappedBy? name i = some id ↔ i = .call id ∧ ∃ callee, p.funcs[id]? = some callee ∧
      callee.isImported = true ∧ name = p.wrapperName id callee := by
  cases i with
  | call func =>
    simp only [wrappedBy?, Option.bind_eq_bind, Option.bind_eq_some_iff, Instr.call.injEq]
    constructor
    · rintro ⟨callee, hcallee, h⟩
      split at h
      next hcond =>
        cases h
        simp only [Bool.and_eq_true, decide_eq_true_eq] at hcond
        exact ⟨rfl, callee, hcallee, hcond.1, hcond.2.symm⟩
      next => cases h
    · rintro ⟨rfl, callee, hcallee, himported, rfl⟩
      exact ⟨callee, hcallee, by simp [himported]⟩
  | _ => simp [wrappedBy?]

/-- The imports that are found are those that the function wraps. -/
theorem mem_wrappedImports_iff {f : Function} {ids : List FuncId}
    (h : p.wrappedImports f = .ok ids) {id : FuncId} : id ∈ ids ↔ p.IsWrapper f id := by
  unfold wrappedImports at h
  split at h
  next hbody =>
    cases h
    simp only [not_mem_nil, false_iff]
    rintro ⟨body, _, hkind, -⟩
    rw [Function.body?_eq_some_iff.mpr hkind] at hbody
    cases hbody
  next body hbody =>
    have hkind := Function.body?_eq_some_iff.mp hbody
    split at h
    next =>
      obtain ⟨visits, hwalk, h⟩ := of_bind h
      cases h
      simp only [mem_filterMap, wrappedBy?_eq_some_iff]
      constructor
      · rintro ⟨v, hv, hcall, callee, hcallee, himported, hname⟩
        obtain ⟨hreach, hinstr⟩ := (Body.mem_walk_iff hwalk).mp hv
        rw [hcall] at hinstr
        exact ⟨body, callee, hkind, ⟨v.seq, v.index, hreach, hinstr⟩, hcallee, himported, hname⟩
      · rintro ⟨body', callee, hkind', ⟨seq, index, hreach, hinstr⟩, hcallee, himported, hname⟩
        cases hkind.symm.trans hkind'
        exact ⟨⟨seq, index, .call id⟩, (Body.mem_walk_iff hwalk).mpr ⟨hreach, hinstr⟩, rfl, callee,
          hcallee, himported, hname⟩
    next hsuffix =>
      cases h
      simp only [not_mem_nil, false_iff]
      rintro ⟨_, callee, -, -, -, -, hname⟩
      refine hsuffix ?_
      rw [hname, wrapperName, isSuffixOf_iff_suffix]
      exact suffix_append _ _

/-- Of several wrappers of an import the last one counts. -/
theorem existingWrappers_get?_eq_some_iff {existing : Targets}
    (h : p.existingWrappers = .ok existing) {id w : FuncId} :
    existing.get? id = some w ↔ p.Recognizes id w := by
  unfold existingWrappers at h
  unfold Recognizes
  -- the functions walked so far, while names and imports are looked up in the whole program
  generalize hfuncs : p.funcs = funcs at h ⊢
  clear hfuncs
  induction funcs using List.reverseRecOn generalizing existing with
  | nil =>
    cases h
    simp [Targets.get?]
  | append_singleton funcs f ih =>
    rw [zipIdx_append, foldlM_append] at h
    obtain ⟨before, hbefore, h⟩ := of_bind h
    simp only [zipIdx_cons, zipIdx_nil, foldlM_cons, foldlM_nil] at h
    obtain ⟨_, hstep, h⟩ := of_bind h
    cases h
    obtain ⟨ids, hids, hstep⟩ := of_bind hstep
    cases hstep
    rw [Targets.get?_foldl_insert]
    simp only [getElem?_concat_eq_some_iff]
    have hbound {n : Nat} {g : Function} (hg : funcs[n]? = some g) : n < funcs.length :=
      (lt_of_getElem? hg)
    split
    next hmem =>
      have hf := (mem_wrappedImports_iff hids).mp hmem
      constructor
      · intro heq
        cases heq
        refine ⟨⟨f, .inr ⟨by simp, rfl⟩, hf⟩, ?_⟩
        rintro w' g hlt (hg | ⟨rfl, -⟩) -
        · rw [Nat.zero_add] at hlt
          exact Nat.lt_asymm hlt (hbound hg)
        · rw [Nat.zero_add] at hlt
          exact Nat.lt_irrefl _ hlt
      · rintro ⟨⟨g, hg | ⟨rfl, -⟩, -⟩, hlater⟩
        · exact absurd hf (hlater _ f (hbound hg) (.inr ⟨rfl, rfl⟩))
        · simp
    next hmem =>
      have hf := mt (mem_wrappedImports_iff hids).mpr hmem
      rw [ih hbefore]
      constructor
      · rintro ⟨⟨g, hg, hwrapper⟩, hlater⟩
        refine ⟨⟨g, .inl hg, hwrapper⟩, ?_⟩
        rintro w' g' hlt (hg' | ⟨-, rfl⟩)
        · exact hlater w' g' hlt hg'
        · exact hf
      · rintro ⟨⟨g, hg | ⟨-, rfl⟩, hwrapper⟩, hlater⟩
        · exact ⟨⟨g, hg, hwrapper⟩, fun w' g' hlt hg' => hlater w' g' hlt (.inl hg')⟩
        · exact absurd hwrapper hf

end Program

/-- No call that can be reached is one that has a target. -/
def Body.Quiet (b : Body) (t : Targets) : Prop :=
  ∀ seq index i func, b.Reaches seq → b.instr? seq index = some i → i.callee? = some func →
    t.get? func = none

theorem Body.Quiet.retarget {b : Body} {t : Targets} (h : b.Quiet t) {visits : List Visit}
    (hwalk : b.walk = .ok visits) : b.retarget t = .ok (0, b) := by
  have hfold : ∀ vs : List Visit, (∀ v ∈ vs, v ∈ visits) →
      vs.foldl (fun done v => retargetAt t done v.seq v.index) (0, b) = (0, b) := by
    intro vs hvs
    induction vs with
    | nil => rfl
    | cons v vs ih =>
      obtain ⟨hreach, hinstr⟩ := (mem_walk_iff hwalk).mp (hvs v (by simp))
      have hnone : ((b.instr? v.seq v.index).bind Instr.callee?).bind t.get? = none := by
        rw [hinstr, Option.bind_some]
        cases hcallee : v.instr.callee? with
        | none => rfl
        | some func => exact h v.seq v.index v.instr func hreach hinstr hcallee
      rw [foldl_cons]
      simp only [retargetAt, hnone]
      exact ih fun u hu => hvs u (mem_cons_of_mem _ hu)
  refine bind_eq_ok_iff.mpr ⟨visits, hwalk, ?_⟩
  rw [hfold visits fun v hv => hv]
  rfl

namespace Program

variable {p : Program}

/-- Retargeting leaves a program alone in which no call has a target. -/
theorem retargetCalls_quiet {t : Targets} (hwalk : p.Walkable)
    (hquiet : ∀ (id : FuncId) f b, p.funcs[id]? = some f → f.kind = .defined b →
      t.hasTarget id = false → b.Quiet t) : p.retargetCalls t = .ok (0, p) := by
  have heach : ∀ entry ∈ p.funcs.zipIdx, retargetFunction t entry.2 entry.1 = .ok (0, entry.1) := by
    rintro ⟨f, id⟩ hentry
    have hf := mk_mem_zipIdx_iff_getElem?.mp hentry
    unfold retargetFunction
    cases hkind : f.kind with
    | imported entry => rfl
    | defined b =>
      obtain ⟨visits, hvisits⟩ := hwalk f (mem_of_getElem? hf) b hkind
      cases htarget : t.hasTarget id with
      | true => rfl
      | false =>
        simp only [(hquiet id f b hf hkind htarget).retarget hvisits, Bool.false_eq_true, ↓reduceIte,
          ok_bind, ← hkind]
        rfl
  have hresults : p.funcs.zipIdx.mapM (fun e => retargetFunction t e.2 e.1) =
      .ok (p.funcs.zipIdx.map fun entry => (0, entry.1)) := by
    rw [mapM_eq_ok_iff, forall₂_map_right_iff, forall₂_same]
    exact heach
  have hsum : ((p.funcs.zipIdx.map fun entry => (0, entry.1)).map Prod.fst).foldr (· + ·) 0 = 0 := by
    induction p.funcs.zipIdx with
    | nil => rfl
    | cons entry entries ih => simpa using ih
  unfold retargetCalls
  split
  next => rfl
  next =>
    refine bind_eq_ok_iff.mpr ⟨_, hresults, ?_⟩
    rw [hsum, map_map]
    have hfuncs : p.funcs.zipIdx.map (Prod.snd ∘ fun entry => (0, entry.1)) = p.funcs :=
      zipIdx_map_fst _ _
    rw [hfuncs]
    rfl

/-- A program in which a pass has nothing left to do: the tag is imported, every flagged import has
a wrapper, and all others call the wrappers. -/
structure Settled (p : Program) (flagged : List FuncId) (tag : TagId) (wrappers : Targets) :
    Prop where
  imported : ∀ id ∈ flagged, ∃ f, p.funcs[id]? = some f ∧ f.isImported = true
  results : ∀ id ∈ flagged, p.checkResults id = .ok ()
  tagged : p.existingTag = .ok (some tag)
  keys : wrappers.map Prod.fst = flagged
  recognized : ∀ id w, (id, w) ∈ wrappers → p.Recognizes id w
  walkable : p.Walkable
  quiet : ∀ (id : FuncId) f b, p.funcs[id]? = some f → f.kind = .defined b →
    wrappers.hasTarget id = false → b.Quiet wrappers

theorem wrapAll_reused {existing targets : Targets}
    (h : ∀ id w, (id, w) ∈ targets → existing.get? id = some w) (strategy : Strategy) (tag : TagId)
    (handles : Handles) :
    wrapAll strategy tag handles existing (targets.map Prod.fst) p = .ok (targets, p) := by
  induction targets with
  | nil => rfl
  | cons pair targets ih =>
    obtain ⟨id, w⟩ := pair
    rw [map_cons, wrapAll, h id w (by simp)]
    exact bind_eq_ok_iff.mpr ⟨_, ih fun id w hw => h id w (mem_cons_of_mem _ hw), rfl⟩

theorem checkHandles_exists {md : Metadata} {flagged : List FuncId} (hmissing : md.missing = [])
    (himported : ∀ id ∈ flagged, ∃ f, p.funcs[id]? = some f ∧ f.isImported = true) :
    ∃ handles, p.checkHandles md flagged = .ok handles := by
  have hfaults : flagged.flatMap p.flagFaults = [] := by
    refine flatMap_eq_nil_iff.mpr fun id hid => ?_
    obtain ⟨f, hf, himp⟩ := himported id hid
    simp [flagFaults, hf, himp]
  refine ⟨_, bind_eq_ok_iff.mpr ⟨(), Fault.joined_eq_ok_iff.mpr ?_, rfl⟩⟩
  rw [hmissing, hfaults, append_nil]

/-- The pass leaves a settled program as it is. -/
theorem Settled.guardImports {md : Metadata} {adapters : List Adapter} {tag : TagId}
    {wrappers : Targets} (h : p.Settled (md.flagged adapters) tag wrappers)
    (hflagged : md.flagged adapters ≠ []) (hmissing : md.missing = []) {strategy : Strategy}
    (hstrategy : strategy ≠ .none) :
    p.guardImports (some md) adapters strategy =
      .ok ⟨p, some tag, md.flagged adapters, wrappers, md.flagged adapters, 0⟩ := by
  obtain ⟨handles, hhandles⟩ := checkHandles_exists hmissing h.imported
  obtain ⟨existing, hexisting⟩ := existingWrappers_exists h.walkable
  have hget : ∀ id w, (id, w) ∈ wrappers → existing.get? id = some w := fun id w hw =>
    (existingWrappers_get?_eq_some_iff hexisting).mpr (h.recognized id w hw)
  have hreused : (md.flagged adapters).filter (existing.get? · |>.isSome) = md.flagged adapters := by
    rw [filter_eq_self, ← h.keys]
    intro id hid
    obtain ⟨⟨_, w⟩, hw, rfl⟩ := mem_map.mp hid
    rw [hget _ w hw]
    rfl
  have hvet : p.vet md (md.flagged adapters) strategy = .ok handles := by
    refine bind_eq_ok_iff.mpr ⟨handles, liftM_fault_eq_ok_iff.mpr hhandles, ?_⟩
    rw [if_neg hstrategy]
    refine bind_eq_ok_iff.mpr ⟨(), forM_eq_ok_iff.mpr fun id hid => ?_, rfl⟩
    exact liftM_abort_eq_ok_iff.mpr (h.results id hid)
  have hguarded : p.guarded (md.flagged adapters) strategy handles =
      .ok (⟨p, some tag, md.flagged adapters, wrappers, md.flagged adapters, 0⟩, p) := by
    have htag : p.hostTag = .ok (tag, p) := by
      rw [hostTag, h.tagged]
      rfl
    have hwrap := wrapAll_reused (p := p) hget strategy tag handles
    rw [h.keys] at hwrap
    refine bind_eq_ok_iff.mpr ⟨_, liftM_fault_eq_ok_iff.mpr htag, ?_⟩
    refine bind_eq_ok_iff.mpr ⟨_, liftM_abort_eq_ok_iff.mpr hexisting, ?_⟩
    refine bind_eq_ok_iff.mpr ⟨_, liftM_abort_eq_ok_iff.mpr hwrap, ?_⟩
    refine bind_eq_ok_iff.mpr
      ⟨_, liftM_abort_eq_ok_iff.mpr (retargetCalls_quiet h.walkable h.quiet), ?_⟩
    rw [hreused]
    rfl
  rw [guardImports_eq strategy hflagged, hvet, ok_bind, hguarded]
  rfl

end Program

end HostCatch
