import HostCatch.Guard.Retarget
import HostCatch.Proofs.Program.Walk
import Mathlib.Data.List.Nodup

namespace HostCatch

open List

/-- A direct call of a function that has a target, with the target in its place. -/
def Instr.retargeted (t : Targets) (i : Instr) : Instr :=
  match i.callee?.bind t.get? with
  | some target => i.retarget target
  | none => i

def Seq.retargeted (t : Targets) (s : Seq) : Seq :=
  { s with instrs := s.instrs.map (Instr.retargeted t) }

namespace Targets

variable {t : Targets} {func target : FuncId}

/-- No target is itself replaced by another. -/
def Stable (t : Targets) : Prop :=
  ∀ target, t.hasTarget target = true → t.get? target = none

theorem mem_of_get? (h : t.get? func = some target) : (func, target) ∈ t := by
  obtain ⟨⟨source, found⟩, hfind, rfl⟩ := Option.map_eq_some_iff.mp h
  have hsource : source = func := by simpa using find?_some hfind
  exact hsource ▸ mem_of_find?_eq_some hfind

theorem hasTarget_of_mem (h : (func, target) ∈ t) : t.hasTarget target = true :=
  any_eq_true.mpr ⟨_, h, by simp⟩

theorem hasTarget_of_get? (h : t.get? func = some target) : t.hasTarget target = true :=
  hasTarget_of_mem (mem_of_get? h)

theorem get?_isSome_iff : (t.get? func).isSome ↔ func ∈ t.map Prod.fst := by
  simp [get?]

theorem get?_of_mem (hnodup : (t.map Prod.fst).Nodup) (h : (func, target) ∈ t) :
    t.get? func = some target := by
  have hsome : (t.get? func).isSome := get?_isSome_iff.mpr (mem_map.mpr ⟨_, h, rfl⟩)
  obtain ⟨found, hfound⟩ := Option.isSome_iff_exists.mp hsome
  cases inj_on_of_nodup_map hnodup h (mem_of_get? hfound) rfl
  exact hfound

end Targets

namespace Instr

theorem retargeted_children (t : Targets) (i : Instr) : (i.retargeted t).children = i.children := by
  unfold retargeted
  split
  next => cases i <;> rfl
  next => rfl

theorem retargeted_callee? (t : Targets) (i : Instr) :
    (i.retargeted t).callee? = i.callee?.map fun func => (t.get? func).getD func := by
  unfold retargeted
  split
  next target h =>
    obtain ⟨func, hfunc, hget⟩ := Option.bind_eq_some_iff.mp h
    cases i <;> simp_all [callee?, retarget]
  next h =>
    cases hc : i.callee? with
    | none => rfl
    | some func => simp_all

theorem retargeted_idem {t : Targets} (stable : t.Stable) (i : Instr) :
    (i.retargeted t).retargeted t = i.retargeted t := by
  have keeps : (i.retargeted t).callee?.bind t.get? = none := by
    rw [retargeted_callee?]
    cases hc : i.callee? with
    | none => rfl
    | some func =>
      cases hg : t.get? func with
      | none => simp [hg]
      | some target => simpa [hg] using stable target (Targets.hasTarget_of_get? hg)
  rw [retargeted, keeps]

end Instr

namespace Body

variable {b c : Body} {seq : SeqId} {f : Instr → Instr} {visits : List Visit} {t : Targets}

/-- The direct calls that can be reached have their targets, and nothing else is changed. -/
structure Retargeted (t : Targets) (b c : Body) : Prop where
  params : c.params = b.params
  locals : c.locals = b.locals
  entry : c.entry = b.entry
  reached : ∀ seq, b.Reaches seq → c.seqs[seq]? = (b.seqs[seq]?).map (Seq.retargeted t)
  others : ∀ seq, ¬ b.Reaches seq → c.seqs[seq]? = b.seqs[seq]?

theorem change_seqs (b : Body) (seq index : Nat) (f : Instr → Instr) (s : SeqId) :
    (b.change seq index f).seqs[s]? = (b.seqs[s]?).map fun old =>
      if seq = s then { old with instrs := old.instrs.modify index f } else old := by
  simp only [change, getElem?_modify]
  split <;> rfl

theorem change_congr {seq index : Nat} {g : Instr → Instr}
    (same : ∀ i, b.instr? seq index = some i → f i = g i) :
    b.change seq index f = b.change seq index g := by
  have hseqs : (b.change seq index f).seqs = (b.change seq index g).seqs := by
    apply ext_getElem?
    intro s
    rw [change_seqs, change_seqs]
    cases hs : b.seqs[s]? with
    | none => rfl
    | some old =>
      by_cases hseq : seq = s
      · subst hseq
        simp only [Option.map_some, ↓reduceIte, Option.some.injEq, Seq.mk.injEq, true_and]
        apply ext_getElem?
        intro k
        simp only [getElem?_modify]
        by_cases hk : index = k
        · subst hk
          cases hi : old.instrs[index]? with
          | none => rfl
          | some i => simp [same i (by rw [instr?_of_seq hs, hi])]
        · simp [hk]
      · simp [hseq]
  exact congrArg (fun seqs => { b with seqs }) hseqs

theorem change_id (b : Body) (seq index : Nat) : b.change seq index (fun i => i) = b := by
  have hseqs : (b.change seq index fun i => i).seqs = b.seqs := by
    apply ext_getElem?
    intro s
    rw [change_seqs]
    cases hs : b.seqs[s]? with
    | none => rfl
    | some old =>
      have hinstrs : (old.instrs.modify index fun i => i) = old.instrs := by
        apply ext_getElem?
        intro k
        rw [getElem?_modify]
        split <;> simp
      simp [hinstrs]
  exact congrArg (fun seqs => { b with seqs }) hseqs

theorem retargetAt_snd (t : Targets) (done : Nat × Body) (seq index : Nat) :
    (retargetAt t done seq index).2 = done.2.change seq index (Instr.retargeted t) := by
  unfold retargetAt
  split
  next target h =>
    obtain ⟨func, hfunc, htarget⟩ := Option.bind_eq_some_iff.mp h
    obtain ⟨i, hi, hcallee⟩ := Option.bind_eq_some_iff.mp hfunc
    apply change_congr
    intro j hj
    cases Option.some.inj (hi.symm.trans hj)
    simp [Instr.retargeted, hcallee, htarget]
  next h =>
    refine (change_id _ seq index).symm.trans (change_congr ?_)
    intro i hi
    rw [hi] at h
    simp only [Option.bind_some] at h
    simp [Instr.retargeted, h]

/-- Changing instructions one after another changes those that are named, each once, when a second
change at the same place does nothing. -/
theorem foldl_change_seqs (once : visits.Pairwise fun u v => u.place = v.place → ∀ i, f (f i) = f i)
    (b : Body) (s : SeqId) :
    (visits.foldl (fun b v => b.change v.seq v.index f) b).seqs[s]? = (b.seqs[s]?).map fun old =>
      { old with instrs := old.instrs.mapIdx fun k i =>
          if (s, k) ∈ visits.map Visit.place then f i else i } := by
  induction visits generalizing b with
  | nil =>
    have same : ∀ is : List Instr, is.mapIdx (fun _ i => i) = is := by
      intro is
      simp [mapIdx_eq_iff]
    simp [same]
  | cons v visits ih =>
    obtain ⟨hv, hrest⟩ := pairwise_cons.mp once
    rw [foldl_cons, ih hrest, change_seqs, Option.map_map]
    congr 1
    funext old
    simp only [Function.comp_apply]
    by_cases hs : v.seq = s
    · simp only [hs, ↓reduceIte, Seq.mk.injEq, true_and]
      apply ext_getElem?
      intro k
      simp only [getElem?_mapIdx, getElem?_modify]
      cases hi : old.instrs[k]? with
      | none => simp
      | some i =>
        by_cases hk : v.index = k
        · have htwice : (s, k) ∈ visits.map Visit.place → f (f i) = f i := by
            intro hagain
            obtain ⟨u, hu, hplace⟩ := mem_map.mp hagain
            exact hv u hu (by rw [hplace, Visit.place, hs, hk]) i
          have hhere : (s, k) = v.place := by rw [Visit.place, hs, hk]
          by_cases hagain : (s, k) ∈ visits.map Visit.place
          · simp [hk, hagain, ← hhere, htwice hagain]
          · simp [hk, hagain, ← hhere]
        · have hother : (s, k) ≠ v.place := fun h => hk (congrArg Prod.snd h).symm
          simp [hk, hother]
    · have hother : ∀ k, (s, k) ≠ v.place := fun k h => hs (congrArg Prod.fst h).symm
      simp [hs, hother]

theorem foldl_change_frame (f : Instr → Instr) (visits : List Visit) (b : Body) :
    let c := visits.foldl (fun b v => b.change v.seq v.index f) b
    c.params = b.params ∧ c.locals = b.locals ∧ c.entry = b.entry := by
  induction visits generalizing b with
  | nil => exact ⟨rfl, rfl, rfl⟩
  | cons v visits ih => exact ih (b.change v.seq v.index f)

theorem foldl_retargetAt_snd (t : Targets) (visits : List Visit) (done : Nat × Body) :
    (visits.foldl (fun done v => retargetAt t done v.seq v.index) done).2 =
      visits.foldl (fun b v => b.change v.seq v.index (Instr.retargeted t)) done.2 := by
  induction visits generalizing done with
  | nil => rfl
  | cons v visits ih => rw [foldl_cons, foldl_cons, ih, retargetAt_snd]

/-- Going through the places that a walk meets changes the code that can be reached, and no other. -/
theorem retargeted_foldl (hwalk : b.walk = .ok visits)
    (once : visits.Pairwise fun u v => u.place = v.place →
      ∀ i : Instr, (i.retargeted t).retargeted t = i.retargeted t) :
    Retargeted t b
      (visits.foldl (fun done v => retargetAt t done v.seq v.index) (0, b)).2 := by
  rw [foldl_retargetAt_snd]
  have hseqs := foldl_change_seqs once b
  obtain ⟨hparams, hlocals, hentry⟩ := foldl_change_frame (Instr.retargeted t) visits b
  refine ⟨hparams, hlocals, hentry, ?_, ?_⟩
  · intro seq hreach
    rw [hseqs]
    cases hs : b.seqs[seq]? with
    | none => rfl
    | some old =>
      simp only [Option.map_some, Option.some.injEq, Seq.retargeted, Seq.mk.injEq, true_and]
      rw [mapIdx_eq_iff]
      intro k
      rw [getElem?_map]
      cases hi : old.instrs[k]? with
      | none => rfl
      | some i =>
        have hvisit : (⟨seq, k, i⟩ : Visit) ∈ visits :=
          (mem_walk_iff hwalk).mpr ⟨hreach, by rw [instr?_of_seq hs, hi]⟩
        have hplace : (seq, k) ∈ visits.map Visit.place := mem_map.mpr ⟨_, hvisit, rfl⟩
        simp [hplace]
  · intro seq hreach
    rw [hseqs]
    have hplace : ∀ k, (seq, k) ∉ visits.map Visit.place := by
      intro k hk
      obtain ⟨v, hv, hpos⟩ := mem_map.mp hk
      cases hpos
      exact hreach ((mem_walk_iff hwalk).mp hv).1
    cases hs : b.seqs[seq]? with
    | none => rfl
    | some old =>
      simp only [Option.map_some, Option.some.injEq, hplace, ↓reduceIte]
      have same : old.instrs.mapIdx (fun _ i => i) = old.instrs := by
        simp [mapIdx_eq_iff]
      rw [same]

theorem retarget_retargeted (stable : t.Stable) {count : Nat} (h : b.retarget t = .ok (count, c)) :
    Retargeted t b c := by
  obtain ⟨visits, hwalk, h⟩ := of_bind h
  have hretargeted := retargeted_foldl hwalk
    (pairwise_of_forall fun _ _ _ => Instr.retargeted_idem stable)
  rwa [pure_eq_ok_iff.mp h] at hretargeted

theorem Retargeted.instr? (h : Retargeted t b c) (hreach : b.Reaches seq) (index : Nat) :
    c.instr? seq index = (b.instr? seq index).map (Instr.retargeted t) := by
  cases hs : b.seqs[seq]? with
  | none => simp [Body.instr?, h.reached seq hreach, hs]
  | some s => simp [Body.instr?, h.reached seq hreach, hs, Seq.retargeted]

/-- Retargeting changes nothing about what is reached. -/
theorem Retargeted.reaches_iff (h : Retargeted t b c) : c.Reaches seq ↔ b.Reaches seq := by
  have place : ∀ seq index, ∃ f : Instr → Instr, (∀ i, (f i).children = i.children) ∧
      c.instr? seq index = (b.instr? seq index).map f := by
    intro seq index
    by_cases hreach : b.Reaches seq
    · exact ⟨_, Instr.retargeted_children t, h.instr? hreach index⟩
    · exact ⟨id, fun _ => rfl, by simp [Body.instr?, h.others seq hreach]⟩
  unfold Reaches
  rw [h.entry]
  constructor
  · refine reachesFrom_of_children ?_
    intro seq index j hj
    obtain ⟨f, hf, hplace⟩ := place seq index
    obtain ⟨i, hi, rfl⟩ := Option.map_eq_some_iff.mp (hplace.symm.trans hj)
    exact ⟨i, hi, (hf i).symm⟩
  · refine reachesFrom_of_children ?_
    intro seq index i hi
    obtain ⟨f, hf, hplace⟩ := place seq index
    exact ⟨f i, by rw [hplace, hi]; rfl, hf i⟩

theorem Retargeted.callee? (stable : t.Stable) (h : Retargeted t b c) (hreach : c.Reaches seq)
    {index : Nat} {i : Instr} (hi : c.instr? seq index = some i) {func : FuncId}
    (hcallee : i.callee? = some func) : t.get? func = none := by
  rw [h.instr? (h.reaches_iff.mp hreach)] at hi
  obtain ⟨j, _, rfl⟩ := Option.map_eq_some_iff.mp hi
  rw [Instr.retargeted_callee?] at hcallee
  obtain ⟨source, _, rfl⟩ := Option.map_eq_some_iff.mp hcallee
  cases hg : t.get? source with
  | none => simp [hg]
  | some target => simpa [hg] using stable target (Targets.hasTarget_of_get? hg)

end Body

/-- A function as it is after retargeting: one that stands in for another and an imported one are
left alone. -/
inductive Function.Retargeted (t : Targets) (id : FuncId) (f : Function) : Function → Prop
  | kept : t.hasTarget id = true ∨ f.isImported = true → Retargeted t id f f
  | changed {b c : Body} : t.hasTarget id = false → f.kind = .defined b → b.Retargeted t c →
      Retargeted t id f { f with kind := .defined c }

namespace Program

theorem retargetFunction_retargeted {t : Targets} (stable : t.Stable) {id : FuncId}
    {f g : Function} {count : Nat} (h : retargetFunction t id f = .ok (count, g)) :
    f.Retargeted t id g := by
  unfold retargetFunction at h
  split at h
  next entry hkind =>
    cases h
    exact .kept (.inr (by simp [Function.isImported, Function.import?, hkind]))
  next body hkind =>
    split at h
    next htarget => cases h; exact .kept (.inl htarget)
    next htarget =>
      obtain ⟨⟨count', c⟩, hc, h⟩ := of_bind h
      cases h
      exact .changed (by simpa using htarget) hkind (Body.retarget_retargeted stable hc)

/-- Retargeting changes nothing but bodies of functions. -/
theorem retargetCalls_eq_ok {p q : Program} {t : Targets} (stable : t.Stable) (hne : t ≠ [])
    {count : Nat} (h : p.retargetCalls t = .ok (count, q)) :
    ∃ funcs, q = { p with funcs } ∧ funcs.length = p.funcs.length ∧
      ∀ (id : FuncId) f, p.funcs[id]? = some f → ∃ g, funcs[id]? = some g ∧ f.Retargeted t id g := by
  unfold retargetCalls at h
  rw [if_neg hne] at h
  obtain ⟨results, hresults, h⟩ := of_bind h
  cases h
  have hall := mapM_eq_ok_iff.mp hresults
  refine ⟨results.map Prod.snd, rfl, by simpa using hall.length_eq.symm, ?_⟩
  intro id f hf
  have hentry : p.funcs.zipIdx[id]? = some (f, id) := by simp [getElem?_zipIdx, hf]
  obtain ⟨⟨n, g⟩, hg, hretarget⟩ := forall₂_getElem? hall hentry
  exact ⟨g, by simp [hg], retargetFunction_retargeted stable hretarget⟩

end Program

end HostCatch
