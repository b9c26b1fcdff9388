import HostCatch.Proofs.Guard.Retarget
import HostCatch.Proofs.Program.Paths
import Mathlib.Data.Set.Card

namespace HostCatch

open List

/-- A place in the code of a program. -/
structure Site where
  func : FuncId
  seq : SeqId
  index : Nat

theorem Targets.hasTarget_iff {t : Targets} (hkeys : (t.map Prod.fst).Nodup) {target : FuncId} :
    t.hasTarget target = true ↔ ∃ func, t.get? func = some target := by
  constructor
  · intro h
    obtain ⟨⟨func, found⟩, hmem, hfound⟩ := any_eq_true.mp h
    cases of_decide_eq_true hfound
    exact ⟨func, get?_of_mem hkeys hmem⟩
  · rintro ⟨func, h⟩
    exact hasTarget_of_get? h

namespace Body

theorem instr?_change_of_ne (b : Body) {seq index : Nat} (f : Instr → Instr) {s : SeqId} {k : Nat}
    (h : (s, k) ≠ (seq, index)) : (b.change seq index f).instr? s k = b.instr? s k := by
  simp only [instr?, change_seqs]
  cases b.seqs[s]? with
  | none => rfl
  | some old =>
    by_cases hs : seq = s
    · have hk : index ≠ k := fun hk => h (by rw [hs, hk])
      simp [hs, hk]
    · simp [hs]

theorem retargetAt_fst {t : Targets} {done : Nat × Body} {seq index : Nat} {i : Instr}
    (hi : done.2.instr? seq index = some i) : (retargetAt t done seq index).1 =
      done.1 + if (i.callee?.bind t.get?).isSome then 1 else 0 := by
  unfold retargetAt
  rw [hi, Option.bind_some]
  cases i.callee?.bind t.get? <;> rfl

/-- Where no place is met twice, each call is counted as it was found. -/
theorem foldl_retargetAt_fst (t : Targets) (done : Nat × Body) {visits : List Visit}
    (hnodup : (visits.map Visit.place).Nodup)
    (hfound : ∀ v ∈ visits, done.2.instr? v.seq v.index = some v.instr) :
    (visits.foldl (fun done v => retargetAt t done v.seq v.index) done).1 =
      done.1 + visits.countP fun v => (v.instr.callee?.bind t.get?).isSome := by
  induction visits generalizing done with
  | nil => rfl
  | cons v visits ih =>
    obtain ⟨hv, hvisits⟩ := forall_mem_cons.mp hfound
    obtain ⟨hplace, hrest⟩ := nodup_cons.mp hnodup
    have hlater : ∀ u ∈ visits,
        (retargetAt t done v.seq v.index).2.instr? u.seq u.index = some u.instr := by
      intro u hu
      rw [retargetAt_snd, instr?_change_of_ne, hvisits u hu]
      exact fun h => hplace (mem_map.mpr ⟨u, hu, h⟩)
    rw [foldl_cons, ih _ hrest hlater, retargetAt_fst hv, countP_cons]
    omega

/-- The places of direct calls that can be reached, of functions that have targets. -/
def callSites (t : Targets) (b : Body) : List (SeqId × Nat) :=
  ((b.walk.toOption.getD []).filter fun v => (v.instr.callee?.bind t.get?).isSome).map Visit.place

theorem mem_callSites_iff {t : Targets} {b : Body} (h : b.IsTree) {place : SeqId × Nat} :
    place ∈ b.callSites t ↔ ∃ i func target, b.Reaches place.1 ∧
      b.instr? place.1 place.2 = some i ∧ i.callee? = some func ∧ t.get? func = some target := by
  obtain ⟨visits, hwalk, -⟩ := h
  simp only [callSites, hwalk, Except.toOption, Option.getD_some, mem_map, mem_filter,
    Option.isSome_iff_exists, Option.bind_eq_some_iff, mem_walk_iff hwalk]
  constructor
  · rintro ⟨v, ⟨⟨hreach, hinstr⟩, target, func, hfunc, htarget⟩, rfl⟩
    exact ⟨v.instr, func, target, hreach, hinstr, hfunc, htarget⟩
  · rintro ⟨i, func, target, hreach, hinstr, hfunc, htarget⟩
    exact ⟨⟨place.1, place.2, i⟩, ⟨⟨hreach, hinstr⟩, target, func, hfunc, htarget⟩, rfl⟩

/-- In a tree every call that has a target is retargeted once, whether or not its target has one. -/
theorem IsTree.retarget {b : Body} (h : b.IsTree) (t : Targets) :
    ∃ c, b.retarget t = .ok ((b.callSites t).length, c) ∧ b.Retargeted t c ∧
      (b.callSites t).Nodup := by
  obtain ⟨visits, hwalk, hnodup⟩ := h.places_nodup
  have hcount := foldl_retargetAt_fst t (0, b) hnodup fun v hv => ((mem_walk_iff hwalk).mp hv).2
  have hdistinct : visits.Pairwise fun u v => u.place ≠ v.place := pairwise_map.mp hnodup
  refine ⟨_, bind_eq_ok_iff.mpr ⟨visits, hwalk, pure_eq_ok_iff.mpr (Prod.ext ?_ rfl)⟩,
    retargeted_foldl hwalk (hdistinct.imp fun hne heq => absurd heq hne), ?_⟩
  · rw [hcount, Nat.zero_add, callSites, hwalk, length_map, countP_eq_length_filter]
    rfl
  · rw [callSites, hwalk]
    exact hnodup.sublist (filter_sublist.map _)

end Body

namespace Function

/-- The places where calls of a function are retargeted: none in one that stands in for another. -/
def callSites (t : Targets) (id : FuncId) (f : Function) : List (SeqId × Nat) :=
  match f.kind with
  | .imported _ => []
  | .defined b => if t.hasTarget id then [] else b.callSites t

theorem callSites_nil (id : FuncId) (f : Function) : f.callSites [] id = [] := by
  unfold callSites
  cases f.kind with
  | imported entry => rfl
  | defined b => simp [Body.callSites, Targets.get?]

theorem retargeted_nil (id : FuncId) (f : Function) : f.Retargeted [] id f := by
  have hinstr : Instr.retargeted [] = fun i => i := by
    funext i
    have hnone : i.callee?.bind (Targets.get? []) = none := by
      cases i.callee? <;> rfl
    rw [Instr.retargeted, hnone]
  cases hkind : f.kind with
  | imported entry =>
    exact .kept (.inr (by simp [isImported, import?, hkind]))
  | defined b =>
    have hbody : b.Retargeted [] b := by
      refine ⟨rfl, rfl, rfl, fun seq _ => ?_, fun _ _ => rfl⟩
      cases b.seqs[seq]? with
      | none => rfl
      | some s => simp [Seq.retargeted, hinstr]
    have hchanged : f.Retargeted [] id { f with kind := .defined b } := .changed rfl hkind hbody
    rwa [← hkind] at hchanged

end Function

namespace Program

def instrAt? (p : Program) (s : Site) : Option Instr := do
  let f ← p.funcs[s.func]?
  let b ← f.body?
  b.instr? s.seq s.index

/-- At a place that can be reached, a function that stands in for no other calls directly one that
has a target. -/
def Redirects (p : Program) (t : Targets) (s : Site) (target : FuncId) : Prop :=
  (∀ func, t.get? func ≠ some s.func) ∧
    ∃ f b i func, p.funcs[s.func]? = some f ∧ f.kind = .defined b ∧ b.Reaches s.seq ∧
      b.instr? s.seq s.index = some i ∧ i.callee? = some func ∧ t.get? func = some target

def callSites (p : Program) (t : Targets) : List Site :=
  p.funcs.zipIdx.flatMap fun e => (e.1.callSites t e.2).map fun place => ⟨e.2, place.1, place.2⟩

variable {p : Program} {t : Targets} {s : Site} {f : Function}

theorem instrAt?_eq {b : Body} (hf : p.funcs[s.func]? = some f) (hb : f.kind = .defined b) :
    p.instrAt? s = b.instr? s.seq s.index := by
  simp [instrAt?, hf, Function.body?, hb]

/-- Where bodies are trees, retargeting counts each call with a target once. -/
theorem retargetFunction_tree (htree : ∀ b, f.kind = .defined b → b.IsTree) (t : Targets)
    (id : FuncId) :
    ∃ g, retargetFunction t id f = .ok ((f.callSites t id).length, g) ∧ f.Retargeted t id g ∧
      (f.callSites t id).Nodup := by
  unfold retargetFunction Function.callSites
  cases hkind : f.kind with
  | imported entry =>
    have himported : f.isImported = true := by simp [Function.isImported, Function.import?, hkind]
    exact ⟨f, rfl, .kept (.inr himported), nodup_nil⟩
  | defined b =>
    obtain ⟨c, hc, hretargeted, hnodup⟩ := (htree b hkind).retarget t
    cases htarget : t.hasTarget id with
    | true => exact ⟨f, rfl, .kept (.inl htarget), nodup_nil⟩
    | false =>
      refine ⟨{ f with kind := .defined c }, ?_, .changed htarget hkind hretargeted, hnodup⟩
      simp only [hc, Bool.false_eq_true, ↓reduceIte, ok_bind]
      rfl

theorem mem_callSites_iff (htrees : ∀ f ∈ p.funcs, ∀ b, f.kind = .defined b → b.IsTree)
    (hkeys : (t.map Prod.fst).Nodup) : s ∈ p.callSites t ↔ ∃ target, p.Redirects t s target := by
  have hfree : ∀ {id : FuncId}, t.hasTarget id = false ↔ ∀ func, t.get? func ≠ some id := by
    intro id
    rw [← Bool.not_eq_true, Targets.hasTarget_iff hkeys, not_exists]
  simp only [callSites, mem_flatMap, mem_map]
  constructor
  · rintro ⟨⟨f, id⟩, he, place, hplace, rfl⟩
    have hf := mk_mem_zipIdx_iff_getElem?.mp he
    unfold Function.callSites at hplace
    split at hplace
    next => cases hplace
    next b hb =>
      split at hplace
      next => cases hplace
      next htarget =>
        obtain ⟨i, func, target, hreach, hi, hfunc, hget⟩ :=
          (Body.mem_callSites_iff (htrees f (mem_of_getElem? hf) b hb)).mp hplace
        exact ⟨target, hfree.mp (Bool.not_eq_true _ ▸ htarget), f, b, i, func, hf, hb, hreach, hi,
          hfunc, hget⟩
  · rintro ⟨target, hno, f, b, i, func, hf, hb, hreach, hi, hfunc, hget⟩
    refine ⟨(f, s.func), mk_mem_zipIdx_iff_getElem?.mpr hf, (s.seq, s.index), ?_, rfl⟩
    simp only [Function.callSites, hb, hfree.mpr hno, Bool.false_eq_true, ↓reduceIte]
    exact (Body.mem_callSites_iff (htrees f (mem_of_getElem? hf) b hb)).mpr
      ⟨i, func, target, hreach, hi, hfunc, hget⟩

theorem callSites_nodup (htrees : ∀ f ∈ p.funcs, ∀ b, f.kind = .defined b → b.IsTree) :
    (p.callSites t).Nodup := by
  refine nodup_flatMap.mpr ⟨fun e he => ?_, ?_⟩
  · obtain ⟨-, -, -, hnodup⟩ := retargetFunction_tree (htrees e.1 (fst_mem_of_mem_zipIdx he)) t e.2
    exact hnodup.map fun _ _ h => Prod.ext (congrArg Site.seq h) (congrArg Site.index h)
  · have hids : (p.funcs.zipIdx.map Prod.snd).Nodup := by
      rw [zipIdx_map_snd]
      exact nodup_range'
    refine (pairwise_map.mp hids).imp fun hne => ?_
    rintro _ hs hs'
    obtain ⟨place, -, rfl⟩ := mem_map.mp hs
    obtain ⟨place', -, heq⟩ := mem_map.mp hs'
    exact hne (congrArg Site.func heq).symm

/-- A call with a target goes there, and every other instruction stays. -/
theorem instrAt?_retargeted {q : Program} {g : Function} (hkeys : (t.map Prod.fst).Nodup)
    (hf : p.funcs[s.func]? = some f) (hg : q.funcs[s.func]? = some g) (h : f.Retargeted t s.func g) :
    (∀ target, p.Redirects t s target →
      ∃ i, p.instrAt? s = some i ∧ q.instrAt? s = some (i.retarget target)) ∧
    ((∀ target, ¬ p.Redirects t s target) → q.instrAt? s = p.instrAt? s) := by
  cases h with
  | kept hkept =>
    have hsame : q.instrAt? s = p.instrAt? s := by simp [instrAt?, hf, hg]
    refine ⟨fun target hredirects => ?_, fun _ => hsame⟩
    obtain ⟨hno, f', b, -, -, hf', hb, -⟩ := hredirects
    cases hf.symm.trans hf'
    rcases hkept with htarget | himported
    · obtain ⟨func, hget⟩ := (Targets.hasTarget_iff hkeys).mp htarget
      exact absurd hget (hno func)
    · simp [Function.isImported, Function.import?, hb] at himported
  | @changed b c htarget hb hbody =>
    rw [instrAt?_eq hf hb, instrAt?_eq hg rfl]
    constructor
    · rintro target ⟨-, f', b', i, func, hf', hb', hreach, hi, hfunc, hget⟩
      cases hf.symm.trans hf'
      cases hb.symm.trans hb'
      refine ⟨i, hi, ?_⟩
      rw [hbody.instr? hreach, hi, Option.map_some, Instr.retargeted, hfunc, Option.bind_some, hget]
    · intro hnone
      by_cases hreach : b.Reaches s.seq
      · rw [hbody.instr? hreach]
        cases hi : b.instr? s.seq s.index with
        | none => rfl
        | some i =>
          have hquiet : i.callee?.bind t.get? = none := by
            refine Option.eq_none_iff_forall_ne_some.mpr fun target hget => ?_
            obtain ⟨func, hfunc, hget⟩ := Option.bind_eq_some_iff.mp hget
            refine hnone target ⟨fun source hsource => ?_, f, b, i, func, hf, hb, hreach, hi, hfunc,
              hget⟩
            rw [Targets.hasTarget_of_get? hsource] at htarget
            cases htarget
          rw [Option.map_some, Instr.retargeted, hquiet]
      · simp only [Body.instr?, hbody.others s.seq hreach]

/-- Each function becomes what it does by itself, and the calls of all of them are counted. -/
theorem retargetCalls_tree (htrees : ∀ f ∈ p.funcs, ∀ b, f.kind = .defined b → b.IsTree)
    (t : Targets) : ∃ funcs, p.retargetCalls t = .ok ((p.callSites t).length, { p with funcs }) ∧
      Forall₂ (fun e g => e.1.Retargeted t e.2 g) p.funcs.zipIdx funcs := by
  have hlength : (p.callSites t).length =
      (p.funcs.zipIdx.map fun e => (e.1.callSites t e.2).length).sum := by
    simp [callSites, length_flatMap]
  unfold retargetCalls
  split
  next hnil =>
    subst hnil
    refine ⟨p.funcs, ?_, ?_⟩
    · rw [hlength]
      simp [Function.callSites_nil]
    · have hsame : Forall₂ (fun e g => e.1.Retargeted [] e.2 g) p.funcs.zipIdx
          (p.funcs.zipIdx.map Prod.fst) :=
        forall₂_map_right_iff.mpr (forall₂_same.mpr fun e _ => Function.retargeted_nil e.2 e.1)
      rwa [zipIdx_map_fst] at hsame
  next =>
    have heach : ∀ e ∈ p.funcs.zipIdx, ∃ r, retargetFunction t e.2 e.1 = .ok r ∧
        r.1 = (e.1.callSites t e.2).length ∧ e.1.Retargeted t e.2 r.2 := by
      intro e he
      obtain ⟨g, hg, hretargeted, -⟩ :=
        retargetFunction_tree (htrees e.1 (fst_mem_of_mem_zipIdx he)) t e.2
      exact ⟨_, hg, rfl, hretargeted⟩
    obtain ⟨results, hresults⟩ := exists_forall₂ heach
    have hcounts : results.map Prod.fst =
        p.funcs.zipIdx.map fun e => (e.1.callSites t e.2).length := by
      rw [← forall₂_eq_eq_eq, forall₂_map_left_iff, forall₂_map_right_iff]
      exact hresults.flip.imp fun _ _ h => h.2.1
    refine ⟨results.map Prod.snd, bind_eq_ok_iff.mpr ⟨results, ?_, ?_⟩, ?_⟩
    · exact mapM_eq_ok_iff.mpr (hresults.imp fun _ _ h => h.1)
    · rw [hcounts, hlength]
      rfl
    · exact forall₂_map_right_iff.mpr (hresults.imp fun _ _ h => h.2.2)

/-- In a program whose bodies are trees, exactly the direct calls that can be reached, of functions
that have targets and outside of those that stand in for others, get their targets, also where these
have targets themselves; nothing else changes, and what is counted is their number. -/
theorem retargetCalls_redirects (htrees : ∀ f ∈ p.funcs, ∀ b, f.kind = .defined b → b.IsTree)
    (hkeys : (t.map Prod.fst).Nodup) : ∃ count funcs,
      p.retargetCalls t = .ok (count, { p with funcs }) ∧ funcs.length = p.funcs.length ∧
      (∀ (id : FuncId) f, p.funcs[id]? = some f →
        ∃ g, funcs[id]? = some g ∧ f.Retargeted t id g) ∧
      (∀ s target, p.Redirects t s target → ∃ i, p.instrAt? s = some i ∧
        { p with funcs }.instrAt? s = some (i.retarget target)) ∧
      (∀ s, (∀ target, ¬ p.Redirects t s target) → { p with funcs }.instrAt? s = p.instrAt? s) ∧
      { s | ∃ target, p.Redirects t s target }.encard = count := by
  obtain ⟨funcs, hrun, hall⟩ := retargetCalls_tree htrees t
  have hlength : funcs.length = p.funcs.length := by
    rw [← hall.length_eq, length_zipIdx]
  have heach : ∀ (id : FuncId) f, p.funcs[id]? = some f →
      ∃ g, funcs[id]? = some g ∧ f.Retargeted t id g := by
    intro id f hf
    have he : p.funcs.zipIdx[id]? = some (f, id) := by simp [getElem?_zipIdx, hf]
    exact forall₂_getElem? hall he
  refine ⟨_, funcs, hrun, hlength, heach, fun s target hredirects => ?_, fun s hnone => ?_, ?_⟩
  · obtain ⟨-, f, -, -, -, hf, -⟩ := id hredirects
    obtain ⟨g, hg, hretargeted⟩ := heach s.func f hf
    exact (instrAt?_retargeted hkeys hf hg hretargeted).1 target hredirects
  · cases hf : p.funcs[s.func]? with
    | none =>
      have hg : funcs[s.func]? = none := by
        rw [getElem?_eq_none_iff, hlength]
        exact getElem?_eq_none_iff.mp hf
      simp [instrAt?, hf, hg]
    | some f =>
      obtain ⟨g, hg, hretargeted⟩ := heach s.func f hf
      exact (instrAt?_retargeted hkeys hf hg hretargeted).2 hnone
  · classical
    have hsites : { s | ∃ target, p.Redirects t s target } = ((p.callSites t).toFinset : Set Site) := by
      ext s
      simp [mem_callSites_iff htrees hkeys]
    rw [hsites, Set.encard_coe_eq_coe_finsetCard, toFinset_card_of_nodup (callSites_nodup htrees)]

/-- Two imports and a function that calls one of them, and a function that calls all three, from a
block as well; a sequence of its own cannot be reached. -/
def chained : Program where
  types := [⟨[], []⟩]
  funcs := [⟨[], 0, .imported 0⟩, ⟨[], 0, .imported 1⟩,
    ⟨[], 0, .defined { seqs := [⟨.multi 0, [.call 0]⟩] }⟩,
    ⟨[], 0, .defined { seqs := [⟨.multi 0, [.call 0, .refFunc 0, .block 1]⟩,
      ⟨.empty, [.call 2, .returnCall 1]⟩, ⟨.empty, [.call 0]⟩] }⟩]
  imports := [⟨"host", "first", .func 0⟩, ⟨"host", "second", .func 1⟩]

theorem chained_trees : ∀ f ∈ chained.funcs, ∀ b, f.kind = .defined b → b.IsTree := by
  intro f hf b hb
  simp only [chained, mem_cons, not_mem_nil, or_false] at hf
  rcases hf with rfl | rfl | rfl | rfl <;> cases hb <;> exact ⟨_, rfl, by decide⟩

/-- The first import gives way to the second, and the second to the function behind them. -/
theorem chained_redirects : ∃ funcs,
    chained.retargetCalls [(0, 1), (1, 2)] = .ok (2, { chained with funcs }) ∧
      funcs[2]? = chained.funcs[2]? ∧
      { chained with funcs }.instrAt? ⟨3, 0, 0⟩ = some (.call 1) ∧
      { chained with funcs }.instrAt? ⟨3, 1, 1⟩ = some (.returnCall 2) ∧
      { s | ∃ target, chained.Redirects [(0, 1), (1, 2)] s target }.encard = 2 := by
  have hrun : (chained.retargetCalls [(0, 1), (1, 2)]).map Prod.fst = .ok 2 := rfl
  obtain ⟨count, funcs, hcalls, -, heach, hsites, -, hcount⟩ :=
    retargetCalls_redirects chained_trees (t := [(0, 1), (1, 2)]) (by decide)
  rw [hcalls] at hrun
  cases hrun
  have hentry : Body.Reaches { seqs := [⟨.multi 0, [.call 0, .refFunc 0, .block 1]⟩,
      ⟨.empty, [.call 2, .returnCall 1]⟩, ⟨.empty, [.call 0]⟩] } 0 := .refl 0
  have hblock : Body.Reaches { seqs := [⟨.multi 0, [.call 0, .refFunc 0, .block 1]⟩,
      ⟨.empty, [.call 2, .returnCall 1]⟩, ⟨.empty, [.call 0]⟩] } 1 :=
    @Body.ReachesFrom.step _ 0 1 1 2 (.block 1) rfl (mem_singleton.mpr rfl) (.refl 1)
  have hfree : ∀ func, Targets.get? [(0, 1), (1, 2)] func ≠ some 3 := by
    intro func hget
    exact absurd (Targets.mem_of_get? hget) (by simp)
  obtain ⟨i, hi, hfirst⟩ := hsites ⟨3, 0, 0⟩ 1 ⟨hfree, _, _, _, 0, rfl, rfl, hentry, rfl, rfl, rfl⟩
  obtain ⟨j, hj, hsecond⟩ := hsites ⟨3, 1, 1⟩ 2 ⟨hfree, _, _, _, 1, rfl, rfl, hblock, rfl, rfl, rfl⟩
  cases hi
  cases hj
  obtain ⟨g, hg, hkept⟩ := heach 2 _ rfl
  refine ⟨funcs, hcalls, ?_, hfirst, hsecond, hcount⟩
  cases hkept with
  | kept => exact hg
  | changed htarget => cases htarget

end Program

end HostCatch
