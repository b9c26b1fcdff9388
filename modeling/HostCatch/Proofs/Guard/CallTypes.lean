import HostCatch.Proofs.Guard.Redirecting
import HostCatch.Proofs.Guard.Settling
import HostCatch.Proofs.Guard.Validity

namespace HostCatch

open List

theorem Instr.callee?_retarget {i : Instr} {func : FuncId} (h : i.callee? = some func)
    (target : FuncId) : (i.retarget target).callee? = some target := by
  cases i with
  | call | returnCall => rfl
  | _ => cases h

namespace Program

/-- What a direct call takes and gives. -/
def callType? (p : Program) (i : Instr) : Option Signature :=
  i.callee?.bind p.funcSignature?

theorem isWrapper_hostTag_iff {p q : Program} (hp : p.Linked) {tag : TagId}
    (h : p.hostTag = .ok (tag, q)) {f : Function} {id : FuncId} :
    q.IsWrapper f id ↔ p.IsWrapper f id := by
  have hfuncs : q.funcs = p.funcs := hostTag_funcs h
  unfold IsWrapper
  rw [hfuncs]
  constructor
  · rintro ⟨body, callee, hkind, hcalls, hcallee, himported, hname⟩
    exact ⟨body, callee, hkind, hcalls, hcallee, himported,
      hname.trans (wrapperName_hostTag hp h hcallee)⟩
  · rintro ⟨body, callee, hkind, hcalls, hcallee, himported, hname⟩
    exact ⟨body, callee, hkind, hcalls, hcallee, himported,
      hname.trans (wrapperName_hostTag hp h hcallee).symm⟩

theorem recognizes_hostTag_iff {p q : Program} (hp : p.Linked) {tag : TagId}
    (h : p.hostTag = .ok (tag, q)) {id w : FuncId} : q.Recognizes id w ↔ p.Recognizes id w := by
  have hfuncs : q.funcs = p.funcs := hostTag_funcs h
  simp only [Recognizes, hfuncs, isWrapper_hostTag_iff hp h]

theorem WellFormed.funcSignature? {p : Program} (hp : p.WellFormed) {id : FuncId} {f : Function}
    (hf : p.funcs[id]? = some f) : ∃ sig, p.funcSignature? id = some sig := by
  have hlt := hp.funcTypes f (mem_of_getElem? hf)
  exact ⟨_, Option.bind_eq_some_iff.mpr ⟨f, hf, getElem?_eq_getElem hlt⟩⟩

section Stages

variable {strategy : Strategy} {p : Program} {flagged : List FuncId} {tag : TagId}
  {handles : Handles} {existing wrappers : Targets} {q r s : Program}

section Staged

variable (st : Stages strategy p flagged tag handles existing wrappers q r s)

include st

theorem Stages.signatures_iff (hp : p.WellFormed) {id w : FuncId} {f g : Function}
    (hf : p.funcs[id]? = some f) (hg : p.funcs[w]? = some g) :
    s.funcSignature? w = s.funcSignature? id ↔
      p.funcSignature? w = p.funcSignature? id := by
  obtain ⟨sig, hsig⟩ := hp.funcSignature? hf
  obtain ⟨sig', hsig'⟩ := hp.funcSignature? hg
  rw [hsig, hsig', st.funcSignature? hp.linked hsig, st.funcSignature? hp.linked hsig']

theorem Stages.made_signature (hp : p.WellFormed) {id w : FuncId} (hw : (id, w) ∈ wrappers)
    (hnone : existing.get? id = none) : s.funcSignature? w = s.funcSignature? id := by
  obtain ⟨g, hg, -, ⟨hsome, -⟩ | ⟨-, -, hforwards⟩⟩ := st.wrapper hp hw
  · rw [hnone] at hsome
    cases hsome
  · obtain ⟨f, hf, htype, -⟩ := hforwards.named
    have hid : id ∈ flagged := st.keys ▸ mem_map_of_mem hw
    obtain ⟨f', hf', himported⟩ := st.imported id hid
    cases hf.symm.trans hf'
    have hkept := st.imported_kept hf himported
    rw [Program.funcSignature?, Program.funcSignature?, hg, hkept]
    exact congrArg (s.types[·]?) htype

/-- A wrapper has the type of its import unless one was found that has not. -/
theorem Stages.wrapper_signature_iff (hp : p.WellFormed)
    (hexisting : q.existingWrappers = .ok existing) {id w : FuncId} (hw : (id, w) ∈ wrappers) :
    s.funcSignature? w = s.funcSignature? id ↔
      ∀ v, p.Recognizes id v → p.funcSignature? v = p.funcSignature? id := by
  have hknown : ∀ {v}, existing.get? id = some v ↔ p.Recognizes id v :=
    (existingWrappers_get?_eq_some_iff hexisting).trans (recognizes_hostTag_iff hp.linked st.tagged)
  rcases st.each id w hw with hold | ⟨hnone, -⟩
  · have hid : id ∈ flagged := st.keys ▸ mem_map_of_mem hw
    obtain ⟨f, hf, -⟩ := st.imported id hid
    obtain ⟨⟨g, hg, -⟩, -⟩ := hknown.mp hold
    rw [st.signatures_iff hp hf hg]
    constructor
    · intro hsame v hv
      cases hold.symm.trans (hknown.mpr hv)
      exact hsame
    · exact fun h => h w (hknown.mp hold)
  · refine ⟨fun _ v hv => ?_, fun _ => st.made_signature hp hw hnone⟩
    rw [hknown.mpr hv] at hnone
    cases hnone

/-- Calls keep their types if all wrappers have those of their imports. -/
theorem Stages.callType_kept (hp : p.WellFormed) (hnodup : flagged.Nodup)
    (hsame : ∀ id w, (id, w) ∈ wrappers → s.funcSignature? w = s.funcSignature? id) {site : Site}
    {i j : Instr} {sig : Signature} (hi : p.instrAt? site = some i) (hsig : p.callType? i = some sig)
    (hj : s.instrAt? site = some j) : s.callType? j = some sig := by
  have hkeys : (wrappers.map Prod.fst).Nodup := st.keys ▸ hnodup
  obtain ⟨f, hf, -⟩ := Option.bind_eq_some_iff.mp hi
  obtain ⟨g, hg, hretargeted⟩ := st.function hf
  obtain ⟨hredirected, hkept⟩ := instrAt?_retargeted hkeys hf hg hretargeted
  obtain ⟨func, hfunc, hsig⟩ := Option.bind_eq_some_iff.mp hsig
  by_cases htarget : ∃ target, p.Redirects wrappers site target
  · obtain ⟨target, hredirects⟩ := htarget
    obtain ⟨i', hi', hj'⟩ := hredirected target hredirects
    obtain ⟨-, f', b, i'', func', hf', hb, -, hi'', hfunc', hget⟩ := hredirects
    cases hi.symm.trans hi'
    cases hj.symm.trans hj'
    rw [instrAt?_eq hf' hb, hi''] at hi
    cases hi
    cases hfunc.symm.trans hfunc'
    rw [callType?, Instr.callee?_retarget hfunc, Option.bind_some,
      hsame func target (Targets.mem_of_get? hget)]
    exact st.funcSignature? hp.linked hsig
  · rw [hkept fun target hredirects => htarget ⟨target, hredirects⟩, hi] at hj
    cases hj
    rw [callType?, hfunc, Option.bind_some]
    exact st.funcSignature? hp.linked hsig

end Staged

end Stages

/-- The wrapper of a flagged import has its type just if the function that is already known as its
wrapper has, where there is one: a wrapper that is made has the type of its import, but one that is
there is known by its name and by a call alone. If all that are known have the types of their imports,
every direct call keeps its type. -/
theorem guardImports_callTypes_iff {p : Program} (hp : p.WellFormed) {md : Metadata}
    {adapters : List Adapter} {strategy : Strategy} {o : Outcome}
    (h : p.guardImports (some md) adapters strategy = .ok o) :
    ((∀ id w, (id, w) ∈ o.wrappers →
        o.program.funcSignature? w = o.program.funcSignature? id) ↔
      ∀ id ∈ md.flagged adapters, ∀ w, p.Recognizes id w →
        p.funcSignature? w = p.funcSignature? id) ∧
    ((∀ id ∈ md.flagged adapters, ∀ w, p.Recognizes id w →
        p.funcSignature? w = p.funcSignature? id) →
      ∀ site i j sig, p.instrAt? site = some i → p.callType? i = some sig →
        o.program.instrAt? site = some j → o.program.callType? j = some sig) := by
  by_cases hflagged : md.flagged adapters = []
  · simp only [guardImports, hflagged, ↓reduceIte, pure_eq_ok_iff] at h
    cases h
    refine ⟨by simp [hflagged], fun _ site i j sig hi hsig hj => ?_⟩
    cases hi.symm.trans hj
    exact hsig
  obtain ⟨handles, tag, q, existing, wrappers, r, count, s, hhandles, htag, hexisting, hwrap,
    hcalls, rfl⟩ := guardImports_eq_ok hflagged h
  have st := stages_of_ok hp hflagged hhandles htag hexisting hwrap hcalls
  have hiff : (∀ id w, (id, w) ∈ wrappers → s.funcSignature? w = s.funcSignature? id) ↔
      ∀ id ∈ md.flagged adapters, ∀ w, p.Recognizes id w →
        p.funcSignature? w = p.funcSignature? id := by
    constructor
    · intro hsame id hid
      rw [← st.keys] at hid
      obtain ⟨⟨_, w⟩, hw, rfl⟩ := mem_map.mp hid
      exact (st.wrapper_signature_iff hp hexisting hw).mp (hsame _ w hw)
    · intro hknown id w hw
      have hid : id ∈ md.flagged adapters := st.keys ▸ mem_map_of_mem hw
      exact (st.wrapper_signature_iff hp hexisting hw).mpr (hknown id hid)
  exact ⟨hiff, fun hknown site i j sig hi hsig hj =>
    st.callType_kept hp (md.flagged_nodup adapters) (hiff.mpr hknown) hi hsig hj⟩

/-- An import, a function that is named as its wrapper and calls it with a number of its own, and a
caller. The function has the type of the import or takes nothing. -/
def mimicked (alike : Bool) : Program where
  types := [⟨[.i32], []⟩, ⟨[], []⟩, ⟨[], [.i32]⟩]
  funcs := [⟨[], 0, .imported 0⟩, ⟨[], 2, .imported 1⟩, ⟨[], 0, .imported 2⟩,
    ⟨utf8 "fetch catch wrapper", if alike then 0 else 1, .defined {
      params := if alike then [0] else []
      seqs := [⟨.multi (if alike then 0 else 1), [.const (.i32 0), .call 0]⟩] }⟩,
    ⟨[], 1, .defined { seqs := [⟨.multi 1, [.const (.i32 7), .call 0]⟩] }⟩]
  tables := [⟨.host, tableLimits 2 none, [], none⟩]
  imports := [⟨"host", "fetch", .func 0⟩, ⟨"host", "alloc", .func 1⟩, ⟨"host", "store", .func 2⟩]
  locals := [.i32]

theorem mimicked_wellFormed (alike : Bool) : (mimicked alike).WellFormed where
  funcTypes := by cases alike <;> decide
  signatures := by simp [mimicked, ValType.IsKnown]
  locals := by simp [mimicked, ValType.IsKnown]
  linked := by
    refine ⟨?_, ?_, by simp [mimicked], ?_, ?_, ?_⟩
    · rintro (_ | _ | _ | _ | _ | id) f entry hf hkind <;> cases hf <;> cases hkind <;>
        exact ⟨_, rfl, rfl⟩
    · rintro (_ | id) t entry ht hentry <;> cases ht
      cases hentry
    · rintro (_ | _ | _ | entry) i id hi htarget <;> cases hi <;> cases htarget <;>
        exact ⟨_, rfl, rfl⟩
    all_goals rintro (_ | _ | _ | entry) i id hi htarget <;> cases hi <;> cases htarget
  bodies := by
    intro f hf b hb
    simp only [mimicked, mem_cons, not_mem_nil, or_false] at hf
    cases alike <;> rcases hf with rfl | rfl | rfl | rfl | rfl <;> cases hb <;>
      exact ⟨_, rfl, by decide⟩

theorem mimicked_guarded (alike : Bool) :
    ∃ o, (mimicked alike).guardImports (some lendingMetadata) [⟨0, 0, 7⟩] .modern = .ok o ∧
      o.wrappers = [(0, 3)] ∧ o.program.funcSignature? 0 = some ⟨[.i32], []⟩ ∧
      o.program.funcSignature? 3 = some ⟨if alike then [.i32] else [], []⟩ ∧
      o.program.instrAt? ⟨4, 0, 1⟩ = some (.call 3) := by
  have hcheck : ((mimicked alike).guardImports (some lendingMetadata) [⟨0, 0, 7⟩]
      .modern).toOption.any (fun o => o.wrappers = [(0, 3)] ∧
        o.program.funcSignature? 0 = some ⟨[.i32], []⟩ ∧
        o.program.funcSignature? 3 = some ⟨if alike then [.i32] else [], []⟩ ∧
        o.program.instrAt? ⟨4, 0, 1⟩ = some (.call 3)) = true := by
    cases alike <;> decide +kernel
  obtain ⟨o, hrun, hfound⟩ := any_toOption_iff.mp hcheck
  exact ⟨o, hrun, of_decide_eq_true hfound⟩

/-- The call that now goes to the function from before has the type it had. -/
theorem mimicked_callTypes : ∃ o,
    (mimicked true).guardImports (some lendingMetadata) [⟨0, 0, 7⟩] .modern = .ok o ∧
      (mimicked true).callType? (.call 0) = some ⟨[.i32], []⟩ ∧
      o.program.instrAt? ⟨4, 0, 1⟩ = some (.call 3) ∧
      o.program.callType? (.call 3) = some ⟨[.i32], []⟩ := by
  obtain ⟨o, hrun, hwrappers, himport, hwrapper, hcall⟩ := mimicked_guarded true
  obtain ⟨hiff, hkept⟩ := guardImports_callTypes_iff (mimicked_wellFormed true) hrun
  have hknown := hiff.mp (by simp [hwrappers, himport, hwrapper])
  exact ⟨o, hrun, rfl, hcall, hkept hknown ⟨4, 0, 1⟩ (.call 0) (.call 3) _ rfl rfl hcall⟩

/-- A function that takes nothing is called in place of an import that takes a number. -/
theorem mimicked_callTypes_differ : ∃ o,
    (mimicked false).guardImports (some lendingMetadata) [⟨0, 0, 7⟩] .modern = .ok o ∧
      (0, 3) ∈ o.wrappers ∧ o.program.funcSignature? 3 ≠ o.program.funcSignature? 0 ∧
      (mimicked false).instrAt? ⟨4, 0, 1⟩ = some (.call 0) ∧
      (mimicked false).callType? (.call 0) = some ⟨[.i32], []⟩ ∧
      o.program.instrAt? ⟨4, 0, 1⟩ = some (.call 3) ∧
      o.program.callType? (.call 3) = some ⟨[], []⟩ := by
  obtain ⟨o, hrun, hwrappers, himport, hwrapper, hcall⟩ := mimicked_guarded false
  exact ⟨o, hrun, by simp [hwrappers], by simp [himport, hwrapper], rfl, rfl, hcall, hwrapper⟩

end Program

end HostCatch
