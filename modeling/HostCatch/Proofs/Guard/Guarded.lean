import HostCatch.Proofs.Guard.Wrapping

namespace HostCatch

open List

namespace Program

variable {md : Metadata} {adapters : List Adapter} {o : Outcome} {id : FuncId} {g : Function}
  {p q : Program} {flagged : List FuncId} {strategy : Strategy} {handles : Handles}
  {tag : TagId} {wrappers : Targets}

/-- What is checked before anything changes. -/
def vet (p : Program) (md : Metadata) (flagged : List FuncId) (strategy : Strategy) :
    Except Failure Handles := do
  let handles ← p.checkHandles md flagged
  if strategy = .none then throw (.abort .noStrategy)
  flagged.forM fun id => (liftM (p.checkResults id) : Except Failure Unit)
  pure handles

/-- What changes once everything is checked. -/
def guarded (p : Program) (flagged : List FuncId) (strategy : Strategy) (handles : Handles) :
    Except Failure (Outcome × Program) := do
  let (tag, p) ← p.hostTag
  let existing ← p.existingWrappers
  let (wrappers, p) ← wrapAll strategy tag handles existing flagged p
  let (retargeted, p) ← p.retargetCalls wrappers
  pure (⟨p, some tag, flagged, wrappers, flagged.filter (existing.get? · |>.isSome), retargeted⟩, p)

theorem guardImports_eq (strategy : Strategy) (h : md.flagged adapters ≠ []) :
    p.guardImports (some md) adapters strategy =
      p.vet md (md.flagged adapters) strategy >>= fun handles =>
        Prod.fst <$> p.guarded (md.flagged adapters) strategy handles := by
  simp only [guardImports, vet, guarded, if_neg h, bind_assoc, map_bind, map_pure]
  refine bind_congr fun handles => ?_
  split
  next => rfl
  next =>
    simp only [bind_assoc, pure_bind]

theorem vet_eq_ok (h : p.vet md flagged strategy = .ok handles) :
    p.checkHandles md flagged = .ok handles ∧ strategy ≠ .none ∧
      ∀ id ∈ flagged, p.checkResults id = .ok () := by
  obtain ⟨found, hfound, h⟩ := of_bind h
  split at h
  next =>
    obtain ⟨_, hthrow, -⟩ := of_bind h
    cases hthrow
  next hstrategy =>
    obtain ⟨⟨⟩, hresults, h⟩ := of_bind h
    cases h
    refine ⟨liftM_fault_eq_ok_iff.mp hfound, hstrategy, fun id hid => ?_⟩
    exact liftM_abort_eq_ok_iff.mp (forM_eq_ok_iff.mp hresults id hid)

theorem guarded_eq_ok (h : p.guarded flagged strategy handles = .ok (o, q)) :
    q = o.program ∧ o.tag.isSome := by
  obtain ⟨_, -, h⟩ := of_bind h
  obtain ⟨_, -, h⟩ := of_bind h
  obtain ⟨_, -, h⟩ := of_bind h
  obtain ⟨_, -, h⟩ := of_bind h
  cases h
  exact ⟨rfl, rfl⟩

theorem guardImports_eq_ok (hflagged : md.flagged adapters ≠ [])
    (h : p.guardImports (some md) adapters strategy = .ok o) :
    ∃ handles tag q existing wrappers r count s,
      p.checkHandles md (md.flagged adapters) = .ok handles ∧ p.hostTag = .ok (tag, q) ∧
      q.existingWrappers = .ok existing ∧
      wrapAll strategy tag handles existing (md.flagged adapters) q = .ok (wrappers, r) ∧
      r.retargetCalls wrappers = .ok (count, s) ∧
      o = ⟨s, some tag, md.flagged adapters, wrappers,
        (md.flagged adapters).filter (existing.get? · |>.isSome), count⟩ := by
  simp only [guardImports, hflagged, ↓reduceIte] at h
  obtain ⟨handles, hhandles, h⟩ := of_bind h
  split at h
  next =>
    obtain ⟨_, hthrow, -⟩ := of_bind h
    cases hthrow
  next =>
    obtain ⟨_, -, h⟩ := of_bind h
    obtain ⟨⟨tag, q⟩, htag, h⟩ := of_bind h
    obtain ⟨existing, hexisting, h⟩ := of_bind h
    obtain ⟨⟨wrappers, r⟩, hwrap, h⟩ := of_bind h
    obtain ⟨⟨count, s⟩, hcalls, h⟩ := of_bind h
    exact ⟨handles, tag, q, existing, wrappers, r, count, s, liftM_fault_eq_ok_iff.mp hhandles,
      liftM_fault_eq_ok_iff.mp htag, liftM_abort_eq_ok_iff.mp hexisting,
      liftM_abort_eq_ok_iff.mp hwrap, liftM_abort_eq_ok_iff.mp hcalls, (pure_eq_ok_iff.mp h).symm⟩

/-- Everything that the pass never touches, and lists that it only adds to. -/
structure Extends (p q : Program) : Prop where
  types : p.types <+: q.types
  tags : p.tags <+: q.tags
  locals : p.locals <+: q.locals
  tables : q.tables = p.tables
  exports : q.exports = p.exports
  start : q.start = p.start
  memories : q.memories = p.memories
  globals : q.globals = p.globals
  elements : q.elements = p.elements
  data : q.data = p.data
  dataCount : q.dataCount = p.dataCount
  customs : q.customs = p.customs
  names : q.names = p.names

/-- A function `g` of `q` forwards to the import `id` of `p`: it has its type, is named for it, and
guards nothing but the call with its own parameters. -/
structure Forwards (strategy : Strategy) (p q : Program) (id : FuncId) (g : Function) : Prop where
  named : ∃ f, p.funcs[id]? = some f ∧ g.type = f.type ∧
    g.name = p.baseName id f ++ utf8 " catch wrapper"
  guards : ∃ body, g.kind = .defined body ∧
    body.params.map (q.locals[·]?) = (p.params g.type).map some ∧
    body.Guards (body.params.map .localGet ++ [.call id] ++
      if strategy = .modern then [.ret] else [])

theorem wrapperName_hostTag (hp : p.Linked) (h : p.hostTag = .ok (tag, q)) {f : Function}
    (hf : p.funcs[id]? = some f) : q.wrapperName id f = p.wrapperName id f := by
  apply wrapperName_congr
  rcases (hostTag_eq_ok hp h).2 with rfl | ⟨types, type, rfl⟩
  · rfl
  · simp only [importOf?, hf, Option.bind_eq_bind, Option.bind_some]
    cases hentry : f.import? with
    | none => rfl
    | some entry =>
      have hkind : f.kind = .imported entry := by
        unfold Function.import? at hentry
        split at hentry
        next => simp_all
        next => cases hentry
      obtain ⟨i, hi, -⟩ := hp.func id f entry hf hkind
      simp [getElem?_append_left (lt_of_getElem? hi)]

theorem NewWrapper.forwards {w : FuncId} (h : NewWrapper strategy tag handles p q id w g) :
    Forwards strategy p q id g := by
  obtain ⟨f, sig, r, hf, hsig, hname, htype, hmade, hcallee, -, -, -, hparams⟩ := h.made
  obtain ⟨body, hbody, hbodyParams, hguards⟩ := hmade.guards
  refine ⟨⟨f, hf, htype, hname⟩, body, hbody, ?_, ?_⟩
  · rw [hbodyParams, hparams, htype, params, hsig]
    rfl
  · rw [hbodyParams, ← hcallee]
    exact hguards

theorem Forwards.ofHostTag {r : Program} (hp : p.WellFormed) (htag : p.hostTag = .ok (tag, q))
    (h : Forwards strategy q r id g) : Forwards strategy p r id g := by
  have hfuncs : q.funcs = p.funcs := hostTag_funcs htag
  obtain ⟨f, hf, htype, hname⟩ := h.named
  rw [hfuncs] at hf
  have hlt : g.type < p.types.length := htype ▸ hp.funcTypes f (mem_of_getElem? hf)
  have hparams : q.params g.type = p.params g.type := by
    rcases (hostTag_eq_ok hp.linked htag).2 with rfl | ⟨types, type, rfl⟩
    · rfl
    · simp only [params, getElem?_append_left hlt]
  obtain ⟨body, hkind, hlocals, hguards⟩ := h.guards
  exact ⟨⟨f, hf, htype, hname.trans (wrapperName_hostTag hp.linked htag hf)⟩, body, hkind,
    hlocals.trans (by rw [hparams]), hguards⟩

theorem IsHostTag.grow (h : p.IsHostTag tag) (htypes : p.types <+: q.types)
    (htags : q.tags = p.tags) (himports : q.imports = p.imports) : q.IsHostTag tag := by
  obtain ⟨t, entry, ht, hentry, hi, htype⟩ := h
  obtain ⟨types, htypes⟩ := htypes
  refine ⟨t, entry, by rw [htags, ht], hentry, by rw [himports, hi], ?_⟩
  rw [← htypes, getElem?_append_left (lt_of_getElem? htype), htype]

/-- No wrapper is itself wrapped, since wrappers are defined and what is flagged is imported. -/
theorem wrappers_stable (funcs : List Function) (hkeys : wrappers.map Prod.fst = flagged)
    (himported : ∀ id ∈ flagged, ∃ f, funcs[id]? = some f ∧ f.isImported = true)
    (hdefined : ∀ id w, (id, w) ∈ wrappers → ∃ g, funcs[w]? = some g ∧ g.isImported = false) :
    wrappers.Stable := by
  intro w hw
  obtain ⟨⟨id, target⟩, hmem, htarget⟩ := any_eq_true.mp hw
  cases of_decide_eq_true htarget
  obtain ⟨g, hg, hdef⟩ := hdefined id _ hmem
  cases hget : wrappers.get? target with
  | none => rfl
  | some next =>
    have hmem : target ∈ flagged := by
      rw [← hkeys]
      exact Targets.get?_isSome_iff.mp (by rw [hget]; rfl)
    obtain ⟨f, hf, himp⟩ := himported target hmem
    cases hf.symm.trans hg
    rw [hdef] at himp
    cases himp

/-- The three stages of a pass: the tag is there, the wrappers are there, calls have targets. -/
structure Stages (strategy : Strategy) (p : Program) (flagged : List FuncId) (tag : TagId)
    (handles : Handles) (existing wrappers : Targets) (q r s : Program) : Prop where
  imported : ∀ id ∈ flagged, ∃ f, p.funcs[id]? = some f ∧ f.isImported = true
  tagged : p.hostTag = .ok (tag, q)
  existed : ∀ id w, existing.get? id = some w →
    ∃ g, q.funcs[w]? = some g ∧ g.isImported = false
  keys : wrappers.map Prod.fst = flagged
  wrapped : ∃ types locals funcs, r = { q with
    types := q.types ++ types, locals := q.locals ++ locals, funcs := q.funcs ++ funcs } ∧
    ∀ n g, funcs[n]? = some g →
      ∃ id, (id, q.funcs.length + n) ∈ wrappers ∧ existing.get? id = none ∧
        NewWrapper strategy tag handles q r id (q.funcs.length + n) g
  each : ∀ id w, (id, w) ∈ wrappers → existing.get? id = some w ∨
    (existing.get? id = none ∧ ∃ g, NewWrapper strategy tag handles q r id w g)
  stable : wrappers.Stable
  retargeted : ∃ funcs, s = { r with funcs } ∧ funcs.length = r.funcs.length ∧
    ∀ (id : FuncId) f, r.funcs[id]? = some f → ∃ g, funcs[id]? = some g ∧ f.Retargeted wrappers id g

theorem NewWrapper.defined {w : FuncId} (h : NewWrapper strategy tag handles p q id w g) :
    g.isImported = false := by
  obtain ⟨body, hkind, -⟩ := h.forwards.guards
  simp [Function.isImported, Function.import?, hkind]

theorem stages_of_ok {r s : Program} (hp : p.WellFormed) {existing : Targets} {count : Nat}
    (hflagged : flagged ≠ []) (hhandles : p.checkHandles md flagged = .ok handles)
    (htag : p.hostTag = .ok (tag, q)) (hexisting : q.existingWrappers = .ok existing)
    (hwrap : wrapAll strategy tag handles existing flagged q = .ok (wrappers, r))
    (hcalls : r.retargetCalls wrappers = .ok (count, s)) :
    Stages strategy p flagged tag handles existing wrappers q r s := by
  have hfuncs : q.funcs = p.funcs := hostTag_funcs htag
  have himported : ∀ id ∈ flagged, ∃ f, p.funcs[id]? = some f ∧ f.isImported = true :=
    fun id hid => checkHandles_eq_ok hhandles hid
  have hwrappable : ∀ id ∈ flagged, q.Wrappable id := by
    intro id hid
    obtain ⟨f, hf, -⟩ := himported id hid
    refine ⟨f, by rw [hfuncs, hf], ?_⟩
    have hlt := hp.funcTypes f (mem_of_getElem? hf)
    rcases (hostTag_eq_ok hp.linked htag).2 with rfl | ⟨types, type, rfl⟩
    · exact hlt
    · rw [length_append]
      exact Nat.lt_of_lt_of_le hlt (Nat.le_add_right _ _)
  have hwraps := wrapAll_eq_ok_iff.mp hwrap
  have hkeys := hwraps.keys
  obtain ⟨hwrapped, hwrappers⟩ := hwraps.newWrappers hwrappable
  have hexisted : ∀ id w, existing.get? id = some w →
      ∃ g, q.funcs[w]? = some g ∧ g.isImported = false :=
    fun id w hw => existingWrappers_defined hexisting (Targets.mem_of_get? hw)
  have hkept : ∀ {id : FuncId} {f : Function}, q.funcs[id]? = some f → r.funcs[id]? = some f :=
    getElem?_of_isPrefix hwraps.gains.funcs
  have hstable : wrappers.Stable := by
    refine wrappers_stable r.funcs hkeys ?_ ?_
    · intro id hid
      obtain ⟨f, hf, himp⟩ := himported id hid
      exact ⟨f, hkept (by rw [hfuncs, hf]), himp⟩
    · intro id w hw
      rcases hwrappers id w hw with hold | ⟨-, g, hnew⟩
      · obtain ⟨g, hg, hdef⟩ := hexisted id w hold
        exact ⟨g, hkept hg, hdef⟩
      · exact ⟨g, hnew.found, hnew.defined⟩
  have hne : wrappers ≠ [] := by
    rintro rfl
    exact hflagged hkeys.symm
  exact ⟨himported, htag, hexisted, hkeys, hwrapped, hwrappers, hstable,
    retargetCalls_eq_ok hstable hne hcalls⟩

theorem guardImports_stages (hp : p.WellFormed) (hflagged : md.flagged adapters ≠ [])
    (h : p.guardImports (some md) adapters strategy = .ok o) :
    ∃ tag handles existing q r, Stages strategy p (md.flagged adapters) tag handles existing
        o.wrappers q r o.program ∧ o.tag = some tag ∧
      o.reused = (md.flagged adapters).filter (existing.get? · |>.isSome) := by
  obtain ⟨handles, tag, q, existing, wrappers, r, count, s, hhandles, htag, hexisting, hwrap,
    hcalls, rfl⟩ := guardImports_eq_ok hflagged h
  exact ⟨tag, handles, existing, q, r,
    stages_of_ok hp hflagged hhandles htag hexisting hwrap hcalls, rfl, rfl⟩

section Stages

variable {strategy : Strategy} {p : Program} {flagged : List FuncId} {tag : TagId}
  {handles : Handles} {existing wrappers : Targets} {q r s : Program}

section Staged

variable (st : Stages strategy p flagged tag handles existing wrappers q r s)

include st

theorem Stages.funcs_tagged : q.funcs = p.funcs :=
  hostTag_funcs st.tagged

theorem Stages.gains : q.Gains r := by
  obtain ⟨types, locals, funcs, hr, -⟩ := st.wrapped
  exact ⟨types, locals, funcs, hr⟩

theorem Stages.function {f : Function} (hf : p.funcs[id]? = some f) :
    ∃ g, s.funcs[id]? = some g ∧ f.Retargeted wrappers id g := by
  obtain ⟨funcs, hs, -, hretarget⟩ := st.retargeted
  rw [← st.funcs_tagged] at hf
  obtain ⟨g, hg, hfg⟩ := hretarget id f (getElem?_of_isPrefix st.gains.funcs hf)
  exact ⟨g, by rw [hs, hg], hfg⟩

theorem Stages.wrapper_kept {w : FuncId} (hw : wrappers.hasTarget w = true)
    (hg : r.funcs[w]? = some g) : s.funcs[w]? = some g := by
  obtain ⟨funcs, hs, -, hretarget⟩ := st.retargeted
  obtain ⟨g', hg', hfg⟩ := hretarget w g hg
  cases hfg with
  | kept => rw [hs, hg']
  | changed hno => exact absurd (hw.symm.trans hno) (by decide)

/-- The wrapper of an import was there before or forwards to the import. -/
theorem Stages.wrapper (hp : p.WellFormed) {w : FuncId} (hw : (id, w) ∈ wrappers) :
    ∃ g, s.funcs[w]? = some g ∧ g.isImported = false ∧
      (((existing.get? id).isSome ∧ p.funcs[w]? = some g) ∨
        (existing.get? id = none ∧ p.funcs.length ≤ w ∧ Forwards strategy p s id g)) := by
  have htarget : wrappers.hasTarget w = true := any_eq_true.mpr ⟨_, hw, by simp⟩
  rcases st.each id w hw with hold | ⟨hnone, g, hnew⟩
  · obtain ⟨g, hg, hdef⟩ := st.existed id w hold
    refine ⟨g, st.wrapper_kept htarget (getElem?_of_isPrefix st.gains.funcs hg), hdef,
      .inl ⟨by simp [hold], ?_⟩⟩
    rw [← st.funcs_tagged, hg]
  · refine ⟨g, st.wrapper_kept htarget hnew.found, hnew.defined, .inr ⟨hnone, ?_, ?_⟩⟩
    · rw [← st.funcs_tagged]
      exact hnew.behind
    · obtain ⟨hnamed, hguards⟩ := hnew.forwards.ofHostTag hp st.tagged
      obtain ⟨funcs', hs, -⟩ := st.retargeted
      exact ⟨hnamed, by rw [hs]; exact hguards⟩

/-- No function but a wrapper has a call of a flagged import left that can be reached. -/
theorem Stages.callee {body : Body} (hg : s.funcs[id]? = some g) (hkind : g.kind = .defined body)
    (hno : wrappers.hasTarget id = false) {seq : SeqId} (hreach : body.Reaches seq) {index : Nat}
    {i : Instr} (hi : body.instr? seq index = some i) {func : FuncId}
    (hcallee : i.callee? = some func) : func ∉ flagged := by
  obtain ⟨funcs, hs, hlength, hretarget⟩ := st.retargeted
  rw [hs] at hg
  have hlt := lt_of_getElem? hg
  rw [hlength] at hlt
  obtain ⟨g', hg', hfg⟩ := hretarget id _ (getElem?_eq_getElem hlt)
  cases hg.symm.trans hg'
  rw [← st.keys, ← Targets.get?_isSome_iff]
  have hnone : wrappers.get? func = none := by
    cases hfg with
    | kept hkept =>
      simp only [hno, Bool.false_eq_true, false_or] at hkept
      simp [Function.isImported, Function.import?, hkind] at hkept
    | changed _ hbody hbodies =>
      cases hkind
      exact hbodies.callee? st.stable hreach hi hcallee
  simp [hnone]

theorem Stages.appended {id : Nat} (hid : p.funcs.length ≤ id) (hlt : id < s.funcs.length) :
    wrappers.hasTarget id = true := by
  obtain ⟨types, locals, funcs, hr, hnew⟩ := st.wrapped
  obtain ⟨funcs', hs, hlength, -⟩ := st.retargeted
  rw [← st.funcs_tagged] at hid
  obtain ⟨n, rfl⟩ := Nat.exists_eq_add_of_le hid
  have hn : n < funcs.length := by
    simp only [hs, hlength, hr, length_append] at hlt
    omega
  obtain ⟨source, hmem, -⟩ := hnew n _ (getElem?_eq_getElem hn)
  exact any_eq_true.mpr ⟨_, hmem, by simp⟩

theorem Stages.extends (hp : p.Linked) : p.Extends s := by
  obtain ⟨types, locals, funcs, hr, -⟩ := st.wrapped
  obtain ⟨funcs', hs, -⟩ := st.retargeted
  rcases (hostTag_eq_ok hp st.tagged).2 with hq | ⟨types', type, hq⟩
  · subst hs hr hq
    exact ⟨by simp, by simp, by simp, rfl, rfl, rfl, rfl, rfl, rfl, rfl, rfl, rfl, rfl⟩
  · subst hs hr hq
    exact ⟨by simp, by simp, by simp, rfl, rfl, rfl, rfl, rfl, rfl, rfl, rfl, rfl, rfl⟩

theorem Stages.hostTag (hp : p.Linked) : s.IsHostTag tag ∧ (s.imports = p.imports ∨
      s.imports = p.imports ++ [⟨tagModule, tagName, .tag tag⟩]) := by
  obtain ⟨hhost, hq⟩ := hostTag_eq_ok hp st.tagged
  obtain ⟨types, locals, funcs, hr, -⟩ := st.wrapped
  obtain ⟨funcs', hs, -⟩ := st.retargeted
  have himports : s.imports = q.imports := by rw [hs, hr]
  refine ⟨hhost.grow ?_ (by rw [hs, hr]) himports, ?_⟩
  · simp [hs, hr]
  · rw [himports]
    rcases hq with rfl | ⟨types', type, rfl⟩
    · exact .inl rfl
    · exact .inr rfl

end Staged

end Stages

/-- A pass puts one wrapper before each flagged import: everything but wrappers calls it in place of
the import, host exceptions have their tag, and nothing else changes. -/
theorem guardImports_guarded {p : Program} (hp : p.WellFormed) {md : Metadata}
    {adapters : List Adapter} {strategy : Strategy} (hflagged : md.flagged adapters ≠ [])
    {o : Outcome} (h : p.guardImports (some md) adapters strategy = .ok o) :
    -- each flagged import has one wrapper, which is an old function or forwards to it
    ((md.flagged adapters).Nodup ∧ o.wrappers.map Prod.fst = md.flagged adapters ∧
      ∀ id w, (id, w) ∈ o.wrappers → ∃ g, o.program.funcs[w]? = some g ∧ g.isImported = false ∧
        ((id ∈ o.reused ∧ p.funcs[w]? = some g) ∨
          (id ∉ o.reused ∧ p.funcs.length ≤ w ∧ Forwards strategy p o.program id g))) ∧
    -- the tag of host exceptions is imported, if need be by one more import
    (∃ tag, o.tag = some tag ∧ o.program.IsHostTag tag ∧
      (o.program.imports = p.imports ∨
        o.program.imports = p.imports ++ [⟨tagModule, tagName, .tag tag⟩])) ∧
    -- functions other than wrappers call wrappers in place of flagged imports
    (∀ (id : FuncId) f, p.funcs[id]? = some f →
      ∃ g, o.program.funcs[id]? = some g ∧ f.Retargeted o.wrappers id g) ∧
    (∀ (id : FuncId) g body, o.program.funcs[id]? = some g → g.kind = .defined body →
      o.wrappers.hasTarget id = false → ∀ seq index i func, body.Reaches seq →
        body.instr? seq index = some i → i.callee? = some func → func ∉ md.flagged adapters) ∧
    -- new functions are wrappers, and the rest stays as it is
    (∀ id, p.funcs.length ≤ id → id < o.program.funcs.length → o.wrappers.hasTarget id = true) ∧
    p.Extends o.program := by
  obtain ⟨tag, handles, existing, q, r, st, htag, hreused⟩ := guardImports_stages hp hflagged h
  refine ⟨⟨md.flagged_nodup adapters, st.keys, ?_⟩, ⟨tag, htag, st.hostTag hp.linked⟩,
    fun id f hf => st.function hf,
    fun id g body hg hkind hno seq index i func hreach hi hcallee =>
      st.callee hg hkind hno hreach hi hcallee,
    fun id hid hlt => st.appended hid hlt, st.extends hp.linked⟩
  intro id w hw
  have hid : id ∈ md.flagged adapters := by
    rw [← st.keys]
    exact mem_map.mpr ⟨_, hw, rfl⟩
  obtain ⟨g, hg, hdef, hcases⟩ := st.wrapper hp hw
  refine ⟨g, hg, hdef, hcases.imp ?_ ?_⟩
  · rintro ⟨hold, hsame⟩
    exact ⟨by simp [hreused, hid, hold], hsame⟩
  · rintro ⟨hnone, hbehind, hforwards⟩
    exact ⟨by simp [hreused, hnone], hbehind, hforwards⟩

/-- A program that calls an import from inside a block. -/
def oneCaller : Program where
  types := [⟨[.i32], [.i32]⟩]
  funcs := [⟨utf8 "fetch", 0, .imported 0⟩,
    ⟨[], 0, .defined { params := [0], seqs := [⟨.multi 0, [.localGet 0, .block 1]⟩,
      ⟨.multi 0, [.call 0, .returnCall 0]⟩] }⟩]
  imports := [⟨"host", "fetch", .func 0⟩]
  locals := [.i32]

theorem oneCaller_wellFormed : oneCaller.WellFormed where
  funcTypes := by decide
  signatures := by simp [oneCaller, ValType.IsKnown]
  locals := by simp [oneCaller, ValType.IsKnown]
  linked := by
    refine ⟨?_, by simp [oneCaller], by simp [oneCaller], ?_, ?_, ?_⟩
    · rintro (_ | _ | id) f entry hf hkind <;> cases hf
      · cases hkind
        exact ⟨_, rfl, rfl⟩
      · cases hkind
    all_goals
      rintro (_ | entry) i id hi htarget <;> cases hi
      cases htarget
    exact ⟨_, rfl, rfl⟩
  bodies := by
    rintro f hf b hb
    simp only [oneCaller, mem_cons, not_mem_nil, or_false] at hf
    rcases hf with rfl | rfl <;> cases hb
    exact ⟨_, rfl, by decide⟩

theorem oneCaller_guarded :
    let md : Metadata := { catching := [7], table := some 0, alloc := some 0, store := some 0 }
    ∃ o, oneCaller.guardImports (some md) [⟨0, 0, 7⟩] .legacy = .ok o ∧
      o.wrappers.map Prod.fst = [0] ∧ ∃ tag, o.tag = some tag ∧ o.program.IsHostTag tag := by
  intro md
  have hflagged : md.flagged [⟨0, 0, 7⟩] = [0] := by cbv
  have hok : (oneCaller.guardImports (some md) [⟨0, 0, 7⟩] .legacy).isOk = true := by
    simp only [guardImports, hflagged]
    rfl
  cases hrun : oneCaller.guardImports (some md) [⟨0, 0, 7⟩] .legacy with
  | error e => rw [hrun] at hok; cases hok
  | ok o =>
    obtain ⟨⟨-, hkeys, -⟩, ⟨tag, htag, hhost, -⟩, -⟩ :=
      guardImports_guarded oneCaller_wellFormed (by simp [hflagged]) hrun
    exact ⟨o, rfl, hkeys.trans hflagged, tag, htag, hhost⟩

end Program

end HostCatch
