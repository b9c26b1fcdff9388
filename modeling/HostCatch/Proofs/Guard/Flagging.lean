import HostCatch.Proofs.Guard.Editing
import Mathlib.Data.List.Sort

namespace HostCatch

open List

namespace Metadata

variable {md md' : Metadata} {adapters adapters' : List Adapter} {id : FuncId}

/-- A function is that of a flagged adapter. -/
def Covers (md : Metadata) (adapters : List Adapter) (id : FuncId) : Prop :=
  ∃ a ∈ adapters, a.id ∈ md.catching ∧ a.func = id

theorem mem_flagged_iff : id ∈ md.flagged adapters ↔ md.Covers adapters id := by
  simp [flagged, Covers, and_assoc]

theorem flagged_ascending (md : Metadata) (adapters : List Adapter) :
    (md.flagged adapters).Pairwise (· < ·) := by
  have hsorted : (md.flagged adapters).Pairwise (· ≤ ·) := pairwise_mergeSort' (· ≤ ·) _
  exact (hsorted.and (md.flagged_nodup adapters)).imp fun h => Nat.lt_of_le_of_ne h.1 h.2

theorem flagged_congr (h : ∀ id, md'.Covers adapters' id ↔ md.Covers adapters id) :
    md'.flagged adapters' = md.flagged adapters := by
  refine (md'.flagged_ascending adapters').eq_of_mem_iff (md.flagged_ascending adapters) fun id => ?_
  rw [mem_flagged_iff, mem_flagged_iff, h]

end Metadata

namespace Targets

variable {t t' : Targets}

theorem get?_eq_some_iff (hkeys : (t.map Prod.fst).Nodup) {func target : FuncId} :
    t.get? func = some target ↔ (func, target) ∈ t :=
  ⟨mem_of_get?, get?_of_mem hkeys⟩

theorem get?_perm (hkeys : (t.map Prod.fst).Nodup) (h : t'.Perm t) : t'.get? = t.get? := by
  have hkeys' : (t'.map Prod.fst).Nodup := (h.map Prod.fst).nodup_iff.mpr hkeys
  funext func
  refine Option.ext fun target => ?_
  rw [get?_eq_some_iff hkeys', get?_eq_some_iff hkeys, h.mem_iff]

theorem hasTarget_perm (h : t'.Perm t) : t'.hasTarget = t.hasTarget := by
  funext func
  rw [Bool.eq_iff_iff, hasTarget, hasTarget, any_eq_true, any_eq_true]
  simp only [h.mem_iff]

end Targets

namespace Program

/-- In which order pairs of functions are held is of no matter to the calls. -/
theorem retargetCalls_perm {t t' : Targets} (hkeys : (t.map Prod.fst).Nodup) (h : t'.Perm t)
    (p : Program) : p.retargetCalls t' = p.retargetCalls t := by
  have hfunction : retargetFunction t' = retargetFunction t := by
    funext id f
    unfold retargetFunction Body.retarget Body.retargetAt
    rw [Targets.get?_perm hkeys h, Targets.hasTarget_perm h]
  have hnil : t' = [] ↔ t = [] := by
    rw [← length_eq_zero_iff, ← length_eq_zero_iff, h.length_eq]
  unfold retargetCalls
  simp only [hfunction, hnil]

theorem retargetCalls_length {t : Targets} {p q : Program} {count : Nat}
    (h : p.retargetCalls t = .ok (count, q)) : q.funcs.length = p.funcs.length := by
  unfold retargetCalls at h
  split at h
  · cases h
    rfl
  · obtain ⟨funcs, hfuncs, h⟩ := of_bind h
    cases h
    rw [length_map, ← (mapM_eq_ok_iff.mp hfuncs).length_eq, length_zipIdx]

end Program

namespace Outcome

/-- The wrappers that a pass has made. -/
def made (o : Outcome) : Targets :=
  o.wrappers.filter (fun e => !o.reused.contains e.1)

/-- What a pass has flagged is in ascending order and has its wrappers in this order. The ones that
are made stand behind the functions from before, without a gap. -/
structure Numbered (p : Program) (o : Outcome) : Prop where
  ascending : o.flagged.Pairwise (· < ·)
  keys : o.wrappers.map Prod.fst = o.flagged
  consecutive : o.made.map Prod.snd = List.range' p.funcs.length o.made.length
  length : o.program.funcs.length = p.funcs.length + o.made.length
  tagged : o.flagged ≠ [] → o.tag.isSome = true

end Outcome

namespace Program

variable {p : Program} {md : Metadata} {adapters : List Adapter} {strategy : Strategy} {o : Outcome}

theorem guardImports_flagged (h : p.guardImports (some md) adapters strategy = .ok o) :
    o.flagged = md.flagged adapters := by
  by_cases hflagged : md.flagged adapters = []
  · simp only [guardImports, hflagged, ↓reduceIte] at h
    cases h
    exact hflagged.symm
  · obtain ⟨_, _, _, _, _, _, _, _, -, -, -, -, -, rfl⟩ := guardImports_eq_ok hflagged h
    rfl

theorem guardImports_numbered (h : p.guardImports (some md) adapters strategy = .ok o) :
    o.Numbered p := by
  have hascending : o.flagged.Pairwise (· < ·) := by
    rw [guardImports_flagged h]
    exact md.flagged_ascending adapters
  by_cases hflagged : md.flagged adapters = []
  · simp only [guardImports, hflagged, ↓reduceIte] at h
    cases h
    exact ⟨hascending, rfl, rfl, rfl, fun hne => absurd rfl hne⟩
  · obtain ⟨handles, tag, q, existing, wrappers, r, count, s, -, htag, -, hwrap, hcalls, rfl⟩ :=
      guardImports_eq_ok hflagged h
    have hwraps := wrapAll_eq_ok_iff.mp hwrap
    -- an import has a new wrapper exactly if none was found for it
    have hmade : wrappers.filter (fun e => (existing.get? e.1).isNone) =
        wrappers.filter (fun e =>
          !((md.flagged adapters).filter (existing.get? · |>.isSome)).contains e.1) := by
      refine filter_congr fun e he => ?_
      have hmem : e.1 ∈ md.flagged adapters := hwraps.keys ▸ mem_map_of_mem he
      cases hfound : existing.get? e.1 <;> simp [hmem, hfound]
    obtain ⟨hconsecutive, hlength⟩ := hwraps.consecutive hmade
    rw [hostTag_funcs htag] at hconsecutive hlength
    exact ⟨hascending, hwraps.keys, hconsecutive, (retargetCalls_length hcalls).trans hlength,
      fun _ => rfl⟩

/-- All that the pass reads of the metadata and the adapters are three handles and what is flagged.
-/
theorem guardImports_congr {md' : Metadata} {adapters' : List Adapter}
    (hhandles : md'.table = md.table ∧ md'.alloc = md.alloc ∧ md'.store = md.store)
    (hflagged : md'.flagged adapters' = md.flagged adapters) (p : Program) (strategy : Strategy) :
    p.guardImports (some md') adapters' strategy = p.guardImports (some md) adapters strategy := by
  obtain ⟨htable, halloc, hstore⟩ := hhandles
  have hcheck : p.checkHandles md' = p.checkHandles md := by
    funext flagged
    unfold checkHandles Metadata.missing
    rw [htable, halloc, hstore]
  unfold guardImports
  simp only [hflagged, hcheck]

/-- Which functions are covered is all that a pass goes by: not how often, in which order or by
which adapters. A run on other metadata and adapters fails as this one fails, or gives the same
outcome and leaves the same program, and the same tag wherever one is written. -/
theorem guardImports_depends {md' : Metadata} {adapters' : List Adapter}
    (hhandles : md'.table = md.table ∧ md'.alloc = md.alloc ∧ md'.store = md.store)
    (hcovers : ∀ id, md'.Covers adapters' id ↔ md.Covers adapters id)
    (p : Program) (strategy : Strategy) :
    p.guardImports (some md') adapters' strategy = p.guardImports (some md) adapters strategy ∧
    (∀ failure s, Edit.guardImports adapters strategy ⟨p, some md⟩ = .error failure s →
      ∃ s', Edit.guardImports adapters' strategy ⟨p, some md'⟩ = .error failure s') ∧
    ∀ o s, Edit.guardImports adapters strategy ⟨p, some md⟩ = .ok o s →
      s = ⟨o.program, some { md with tag := o.tag.or md.tag }⟩ ∧
      Edit.guardImports adapters' strategy ⟨p, some md'⟩ =
        .ok o ⟨o.program, some { md' with tag := o.tag.or md'.tag }⟩ ∧
      (∀ id, id ∈ o.flagged ↔ md.Covers adapters id) ∧ o.Numbered p ∧
      ∀ t, t.Perm o.wrappers → ∀ q, retargetCalls q t = retargetCalls q o.wrappers := by
  have hsame := guardImports_congr hhandles (Metadata.flagged_congr hcovers) p strategy
  have hrun := Edit.guardImports_runs adapters strategy p (some md)
  have hrun' := Edit.guardImports_runs adapters' strategy p (some md')
  rw [hsame] at hrun'
  refine ⟨hsame, ?_⟩
  cases hresult : p.guardImports (some md) adapters strategy with
  | error failure =>
    rw [hresult] at hrun hrun'
    obtain ⟨s, hs⟩ := hrun
    refine ⟨fun failure' s' hs' => ?_, fun o s' hs' => ?_⟩
    · cases hs.symm.trans hs'
      exact hrun'
    · cases hs.symm.trans hs'
  | ok o =>
    rw [hresult] at hrun hrun'
    refine ⟨fun failure s hs => ?_, fun o' s hs => ?_⟩
    · cases hrun.symm.trans hs
    · cases hrun.symm.trans hs
      have hnumbered := guardImports_numbered hresult
      refine ⟨rfl, hrun', fun id => ?_, hnumbered, fun t ht q => retargetCalls_perm ?_ ht q⟩
      · rw [guardImports_flagged hresult, Metadata.mem_flagged_iff]
      · rw [hnumbered.keys]
        exact hnumbered.ascending.imp Nat.ne_of_lt

/-- Two imports of one type. -/
def pingPong : Program where
  types := [⟨[], []⟩]
  funcs := [⟨utf8 "ping", 0, .imported 0⟩, ⟨utf8 "pong", 0, .imported 1⟩]
  imports := [⟨"host", "ping", .func 0⟩, ⟨"host", "pong", .func 1⟩]

/-- One list has the later import first, the other has it twice and under other numbers. -/
theorem pingPong_depends :
    let md : Metadata := { catching := [4, 7], table := some 0, alloc := some 9, store := some 9 }
    let md' : Metadata := { md with catching := [3, 5, 6] }
    ∃ o, Edit.guardImports [⟨1, 1, 7⟩, ⟨0, 0, 4⟩] .modern ⟨pingPong, some md⟩ =
        .ok o ⟨o.program, some { md with tag := some 0 }⟩ ∧
      Edit.guardImports [⟨0, 0, 6⟩, ⟨1, 1, 5⟩, ⟨1, 1, 3⟩, ⟨0, 2, 4⟩] .modern ⟨pingPong, some md'⟩ =
        .ok o ⟨o.program, some { md' with tag := some 0 }⟩ ∧
      o.made = [(0, 2), (1, 3)] := by
  intro md md'
  have hcovers : ∀ id, md'.Covers [⟨0, 0, 6⟩, ⟨1, 1, 5⟩, ⟨1, 1, 3⟩, ⟨0, 2, 4⟩] id ↔
      md.Covers [⟨1, 1, 7⟩, ⟨0, 0, 4⟩] id := by
    simp [Metadata.Covers, md, md', or_comm]
  have hhandles : md'.table = md.table ∧ md'.alloc = md.alloc ∧ md'.store = md.store :=
    ⟨rfl, rfl, rfl⟩
  obtain ⟨-, -, h⟩ := guardImports_depends hhandles hcovers pingPong .modern
  have hflagged : md.flagged [⟨1, 1, 7⟩, ⟨0, 0, 4⟩] = [0, 1] := by
    refine (md.flagged_ascending _).eq_of_mem_iff (by decide) fun id => ?_
    simp [Metadata.mem_flagged_iff, Metadata.Covers, md, eq_comm, or_comm]
  have hok : (pingPong.guardImports (some md) [⟨1, 1, 7⟩, ⟨0, 0, 4⟩] .modern).toOption.map
      (fun o => (o.tag, o.made)) = some (some 0, [(0, 2), (1, 3)]) := by
    simp only [guardImports, hflagged, md]
    decide +kernel
  have hrun := Edit.guardImports_runs [⟨1, 1, 7⟩, ⟨0, 0, 4⟩] .modern pingPong (some md)
  cases hresult : pingPong.guardImports (some md) [⟨1, 1, 7⟩, ⟨0, 0, 4⟩] .modern with
  | error failure =>
    rw [hresult] at hok
    cases hok
  | ok o =>
    rw [hresult] at hok hrun
    obtain ⟨htag, hmade⟩ := Prod.mk.inj (Option.some.inj hok)
    obtain ⟨-, hrun', -⟩ := h o _ hrun
    rw [htag] at hrun'
    refine ⟨o, hrun.trans ?_, hrun', hmade⟩
    rw [htag]
    rfl

end Program

end HostCatch
