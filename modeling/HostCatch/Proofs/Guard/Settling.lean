import HostCatch.Proofs.Guard.Recognition

namespace HostCatch

open List

theorem Instr.guarded?_children {i : Instr} {seq : SeqId} (h : i.guarded? = some seq) :
    seq ∈ i.children := by
  cases i <;> simp_all [guarded?, children]

theorem Recipe.Leaf.callee? {r : Recipe} {i : Instr} (h : r.Leaf i) {func : FuncId}
    (hcallee : i.callee? = some func) :
    func = r.callee ∨ func = r.handles.alloc ∨ func = r.handles.store := by
  cases h <;> cases hcallee <;> simp

theorem Body.mem_of_instr? {b : Body} {seq : SeqId} {index : Nat} {i : Instr}
    (h : b.instr? seq index = some i) : ∃ s ∈ b.seqs, i ∈ s.instrs := by
  obtain ⟨s, hs, hmem⟩ := Option.bind_eq_some_iff.mp h
  exact ⟨s, mem_of_getElem? hs, mem_of_getElem? hmem⟩

namespace Function.MadeBy

variable {g : Function} {strategy : Strategy} {r : Recipe}

theorem calls (h : g.MadeBy strategy r) : ∃ body, g.kind = .defined body ∧ body.Calls r.callee := by
  obtain ⟨body, hkind, -, place, index, i, seq, s, hreach, hi, hguarded, hs, hcode, -⟩ := h.guards
  refine ⟨body, hkind, seq, r.params.length, ?_, ?_⟩
  · exact hreach.trans (.step hi (Instr.guarded?_children hguarded) (.refl seq))
  · rw [Body.instr?_of_seq hs, hcode]
    simp [Recipe.forwarding]

theorem callee? (h : g.MadeBy strategy r) {body : Body} (hkind : g.kind = .defined body)
    {seq : SeqId} {index : Nat} {i : Instr} (hi : body.instr? seq index = some i) {func : FuncId}
    (hcallee : i.callee? = some func) :
    func = r.callee ∨ func = r.handles.alloc ∨ func = r.handles.store := by
  obtain ⟨body', defaults, hkind', -, -, hdefaults, hseqs⟩ := h
  cases hkind.symm.trans hkind'
  obtain ⟨s, hs, hmem⟩ := Body.mem_of_instr? hi
  rcases hseqs with ⟨-, hseqs⟩ | ⟨-, handlerType, tried, hseqs⟩
  · obtain rfl | rfl | hleaf := Recipe.modernSeqs_instr hdefaults (hseqs ▸ hs) hmem
    · cases hcallee
    · cases hcallee
    · exact hleaf.callee? hcallee
  · obtain rfl | hleaf := Recipe.legacySeqs_instr hdefaults (hseqs ▸ hs) hmem
    · cases hcallee
    · exact hleaf.callee? hcallee

theorem isTree (h : g.MadeBy strategy r) {body : Body} (hkind : g.kind = .defined body) :
    body.IsTree := by
  obtain ⟨body', defaults, hkind', hentry, -, hdefaults, hseqs⟩ := h
  cases hkind.symm.trans hkind'
  refine Body.isTree_of_nested ?_ hentry
  rcases hseqs with ⟨-, hseqs⟩ | ⟨-, handlerType, tried, hseqs⟩
  · rw [hseqs]
    exact Program.modernSeqs_nested hdefaults _
  · rw [hseqs]
    exact Program.legacySeqs_nested hdefaults _ _ _

end Function.MadeBy

namespace Body.Retargeted

variable {t : Targets} {b c : Body}

theorem length (h : Retargeted t b c) : c.seqs.length = b.seqs.length := by
  have hnone (n : Nat) : c.seqs[n]? = none ↔ b.seqs[n]? = none := by
    by_cases hreach : b.Reaches n
    · rw [h.reached n hreach, Option.map_eq_none_iff]
    · rw [h.others n hreach]
  simp only [getElem?_eq_none_iff] at hnone
  have hc := (hnone b.seqs.length).mpr (Nat.le_refl _)
  have hb := (hnone c.seqs.length).mp (Nat.le_refl _)
  omega

theorem walkSeq (h : Retargeted t b c) {bound : Nat} {id : SeqId} (hid : b.Reaches id)
    {visits : List Visit} (hwalk : b.walkSeq bound id = .ok visits) :
    ∃ visits, c.walkSeq bound id = .ok visits := by
  induction bound generalizing id visits with
  | zero => cases hwalk
  | succ bound ih =>
    obtain ⟨s, parts, hs, -, hparts⟩ := walkSeq_succ_eq_ok_iff.mp hwalk
    have hs' : c.seqs[id]? = some (s.retargeted t) := by
      rw [h.reached id hid, hs]
      rfl
    have hentries : ∀ entry ∈ (s.retargeted t).instrs.zipIdx, ∃ part : List Visit, ∃ nested,
        Forall₂ (fun child vs => c.walkSeq bound child = .ok vs) entry.1.children nested ∧
          part = ⟨id, entry.2, entry.1⟩ :: nested.flatten := by
      rintro ⟨i', index⟩ hentry
      have hi' := mk_mem_zipIdx_iff_getElem?.mp hentry
      simp only [Seq.retargeted, getElem?_map, Option.map_eq_some_iff] at hi'
      obtain ⟨i, hi, rfl⟩ := hi'
      have hinstr : b.instr? id index = some i := by rw [instr?_of_seq hs, hi]
      obtain ⟨part, -, nested, hnested, -⟩ :=
        forall₂_mem_left hparts (mk_mem_zipIdx_iff_getElem?.mpr hi)
      have hchildren : ∀ child ∈ (i.retargeted t).children, ∃ vs, c.walkSeq bound child = .ok vs := by
        intro child hchild
        rw [Instr.retargeted_children] at hchild
        obtain ⟨vs, -, hvs⟩ := forall₂_mem_left hnested hchild
        exact ih (hid.trans (.step hinstr hchild (.refl child))) hvs
      obtain ⟨nested', hnested'⟩ := exists_forall₂ hchildren
      exact ⟨_, nested', hnested', rfl⟩
    obtain ⟨parts', hparts'⟩ := exists_forall₂ hentries
    exact ⟨_, walkSeq_succ_eq_ok_iff.mpr ⟨_, parts', hs', rfl, hparts'⟩⟩

theorem walk (h : Retargeted t b c) {visits : List Visit} (hwalk : b.walk = .ok visits) :
    ∃ visits, c.walk = .ok visits := by
  unfold Body.walk
  rw [h.length, h.entry]
  exact h.walkSeq (.refl _) hwalk

end Body.Retargeted

namespace Program

variable {p : Program} {tag : TagId}

theorem existingTag_eq_none_iff : p.existingTag = .ok none ↔
      p.imports.find? (fun i => i.module = tagModule && i.name = tagName) = none := by
  unfold existingTag
  constructor
  · intro h
    split at h
    next hnone => exact hnone
    next =>
      split at h
      next => cases h
      next => split at h <;> cases h
  · intro h
    rw [h]

theorem existingTag_eq_some_iff : p.existingTag = .ok (some tag) ↔
      (p.imports.find? fun i => i.module = tagModule && i.name = tagName).bind Import.tag? = some tag ∧
        p.tags[tag]?.bind (p.types[·.type]?) = some hostTagSignature := by
  unfold existingTag
  constructor
  · intro h
    split at h
    next => cases h
    next i hi =>
      split at h
      next => cases h
      next found hfound =>
        split at h
        next htype =>
          cases h
          rw [hi]
          exact ⟨hfound, htype⟩
        next => cases h
  · rintro ⟨hfound, htype⟩
    obtain ⟨i, hi, htag⟩ := Option.bind_eq_some_iff.mp hfound
    rw [hi]
    simp only [htag, htype, ↓reduceIte]

theorem hostTag_existingTag {q : Program} (h : p.hostTag = .ok (tag, q)) :
    q.existingTag = .ok (some tag) := by
  obtain ⟨found, hfound, h⟩ := of_bind h
  cases found with
  | some found =>
    cases h
    exact hfound
  | none =>
    have hnone := existingTag_eq_none_iff.mp hfound
    obtain ⟨types, htypes, htype, -⟩ := addType_spec p hostTagSignature
    simp only [pure_eq_ok_iff, Prod.mk.injEq, importTag] at h
    obtain ⟨rfl, rfl⟩ := h
    rw [existingTag_eq_some_iff, htypes]
    simp [find?_append, hnone, Import.tag?, htype]

theorem existingTag_grow {q : Program} (h : p.existingTag = .ok (some tag))
    (himports : q.imports = p.imports) (htags : q.tags = p.tags) (htypes : p.types <+: q.types) :
    q.existingTag = .ok (some tag) := by
  obtain ⟨hfound, htype⟩ := existingTag_eq_some_iff.mp h
  refine existingTag_eq_some_iff.mpr ⟨by rw [himports, hfound], ?_⟩
  obtain ⟨t, ht, hsig⟩ := Option.bind_eq_some_iff.mp htype
  rw [htags, ht, Option.bind_some]
  exact getElem?_of_isPrefix htypes hsig

section Stages

variable {strategy : Strategy} {p : Program} {flagged : List FuncId} {tag : TagId}
  {handles : Handles} {existing wrappers : Targets} {q r s : Program}
  {id : FuncId} {f : Function}

section Staged

variable (st : Stages strategy p flagged tag handles existing wrappers q r s)

include st

theorem Stages.shape : s.imports = q.imports ∧ s.tags = q.tags ∧ q.types <+: s.types := by
  obtain ⟨types, locals, funcs, hr, -⟩ := st.wrapped
  obtain ⟨funcs', hs, -⟩ := st.retargeted
  rw [hs, hr]
  exact ⟨rfl, rfl, prefix_append _ _⟩

theorem Stages.imported_kept (hf : p.funcs[id]? = some f) (himported : f.isImported = true) :
    s.funcs[id]? = some f := by
  obtain ⟨g, hg, hfg⟩ := st.function hf
  cases hfg with
  | kept => exact hg
  | changed _ hkind => simp [Function.isImported, Function.import?, hkind] at himported

/-- The functions behind those from before were made for imports that had no wrapper. -/
theorem Stages.made {w : Nat} (hw : q.funcs.length ≤ w) {g : Function} (hg : s.funcs[w]? = some g) :
    ∃ id, (id, w) ∈ wrappers ∧ existing.get? id = none ∧
      NewWrapper strategy tag handles q r id w g := by
  obtain ⟨types, locals, funcs, hr, hnew⟩ := st.wrapped
  obtain ⟨funcs', hs, hlength, -⟩ := st.retargeted
  obtain ⟨n, rfl⟩ := Nat.exists_eq_add_of_le hw
  have hn : n < funcs.length := by
    have hlt := lt_of_getElem? hg
    simp only [hs, hlength, hr, length_append] at hlt
    omega
  obtain ⟨id, hmem, hnone, hmade⟩ := hnew n _ (getElem?_eq_getElem hn)
  have hkept := st.wrapper_kept (Targets.hasTarget_of_mem hmem) hmade.found
  cases hg.symm.trans hkept
  exact ⟨id, hmem, hnone, hmade⟩

end Staged

theorem IsWrapper.congr (hfuncs : q.funcs[id]? = p.funcs[id]?) (himports : q.imports = p.imports)
    (h : p.IsWrapper f id) : q.IsWrapper f id := by
  obtain ⟨body, callee, hkind, hcalls, hcallee, himported, hname⟩ := h
  refine ⟨body, callee, hkind, hcalls, by rw [hfuncs, hcallee], himported, ?_⟩
  rw [hname, wrapperName_congr callee (importOf?_congr hfuncs himports)]

theorem Stages.isWrapper (st : Stages strategy p flagged tag handles existing wrappers q r s)
    (halloc : handles.alloc ∉ flagged) (hstore : handles.store ∉ flagged)
    {w : FuncId} (hid : id ∈ flagged) {g : Function} (hg : s.funcs[w]? = some g)
    (hwrapper : s.IsWrapper g id) :
    (q.funcs[w]? = some g ∧ q.IsWrapper g id) ∨
      (q.funcs.length ≤ w ∧ (id, w) ∈ wrappers ∧ existing.get? id = none) := by
  have hcalls := hwrapper
  obtain ⟨body, _, hkind, ⟨seq, index, hreach, hcall⟩, -⟩ := hcalls
  have htarget : wrappers.hasTarget w = true := by
    cases hno : wrappers.hasTarget w with
    | true => rfl
    | false => exact absurd hid (st.callee hg hkind hno hreach hcall rfl)
  rcases Nat.lt_or_ge w q.funcs.length with hlt | hge
  · have hw := getElem?_eq_getElem hlt
    have hkept : s.funcs[w]? = some q.funcs[w] :=
      st.wrapper_kept htarget (getElem?_of_isPrefix st.gains.funcs hw)
    cases hg.symm.trans hkept
    obtain ⟨f, hf, himported⟩ := st.imported id hid
    have hsame : q.funcs[id]? = s.funcs[id]? := by
      rw [st.imported_kept hf himported, st.funcs_tagged, hf]
    exact .inl ⟨hw, hwrapper.congr hsame st.shape.1.symm⟩
  · obtain ⟨source, hmem, hnone, hnew⟩ := st.made hge hg
    obtain ⟨_, _, recipe, -, -, -, -, hmade, hcallee, -, hhandles, -⟩ := hnew.made
    rcases hmade.callee? hkind hcall rfl with heq | heq | heq
    · rw [heq, hcallee]
      exact .inr ⟨hge, hmem, hnone⟩
    · rw [hhandles] at heq
      exact absurd (heq ▸ hid) halloc
    · rw [hhandles] at heq
      exact absurd (heq ▸ hid) hstore

theorem Stages.walkable (st : Stages strategy p flagged tag handles existing wrappers q r s)
    (hp : p.WellFormed) : s.Walkable := by
  intro g hg b hkind
  obtain ⟨id, hg⟩ := getElem?_of_mem hg
  by_cases hlt : id < p.funcs.length
  · obtain ⟨g', hg', hfg⟩ := st.function (getElem?_eq_getElem hlt)
    cases hg.symm.trans hg'
    have hmem := getElem_mem hlt
    cases hfg with
    | kept => exact hp.walkable _ hmem b hkind
    | changed _ hbody hbodies =>
      cases hkind
      obtain ⟨visits, hvisits⟩ := hp.walkable _ hmem _ hbody
      exact hbodies.walk hvisits
  · have hge := Nat.le_of_not_lt hlt
    rw [← st.funcs_tagged] at hge
    obtain ⟨_, -, -, hnew⟩ := st.made hge hg
    obtain ⟨_, _, recipe, -, -, -, -, hmade, -⟩ := hnew.made
    obtain ⟨visits, hvisits, -⟩ := hmade.isTree hkind
    exact ⟨visits, hvisits⟩

theorem checkResults_kept (hf : p.funcs[id]? = some f) (htype : f.type < p.types.length)
    (hkept : s.funcs[id]? = some f) (htypes : p.types <+: s.types) (h : p.checkResults id = .ok ()) :
    s.checkResults id = .ok () := by
  have hsame : s.results f.type = p.results f.type := by
    have hsig := getElem?_eq_getElem htype
    rw [results, results, hsig, getElem?_of_isPrefix htypes hsig]
  rw [checkResults_eq_ok_iff hkept, hsame]
  exact (checkResults_eq_ok_iff hf).mp h

theorem Stages.recognized (st : Stages strategy p flagged tag handles existing wrappers q r s)
    (hexisting : q.existingWrappers = .ok existing) (hnodup : flagged.Nodup)
    (halloc : handles.alloc ∉ flagged) (hstore : handles.store ∉ flagged) {w : FuncId}
    (hw : (id, w) ∈ wrappers) : s.Recognizes id w := by
  have hid : id ∈ flagged := by
    rw [← st.keys]
    exact mem_map.mpr ⟨_, hw, rfl⟩
  obtain ⟨f, hf, himported⟩ := st.imported id hid
  have hsame : s.funcs[id]? = q.funcs[id]? := by
    rw [st.imported_kept hf himported, st.funcs_tagged, hf]
  have htarget := Targets.hasTarget_of_mem hw
  rcases st.each id w hw with hold | ⟨hnone, g, hnew⟩
  · obtain ⟨⟨g, hg, hwrapper⟩, hlater⟩ := (existingWrappers_get?_eq_some_iff hexisting).mp hold
    refine ⟨⟨g, st.wrapper_kept htarget (getElem?_of_isPrefix st.gains.funcs hg),
      hwrapper.congr hsame st.shape.1⟩, ?_⟩
    intro w' g' hlt hg' hwrapper'
    rcases st.isWrapper halloc hstore hid hg' hwrapper' with ⟨hq, hbefore⟩ | ⟨-, -, hnone⟩
    · exact hlater w' g' hlt hq hbefore
    · rw [hold] at hnone
      cases hnone
  · obtain ⟨f', _, recipe, hf', -, hname, -, hmade, hcallee, -⟩ := hnew.made
    obtain ⟨body, hkind, hcalls⟩ := hmade.calls
    rw [hcallee] at hcalls
    rw [st.funcs_tagged, hf] at hf'
    cases hf'
    refine ⟨⟨g, st.wrapper_kept htarget hnew.found, body, f, hkind, hcalls,
      st.imported_kept hf himported, himported, ?_⟩, ?_⟩
    · rw [hname, wrapperName_congr f (importOf?_congr hsame st.shape.1)]
    · intro w' g' hlt hg' hwrapper'
      rcases st.isWrapper halloc hstore hid hg' hwrapper' with ⟨hq, -⟩ | ⟨-, hmem, -⟩
      · exact Nat.lt_asymm hlt (Nat.lt_of_lt_of_le (lt_of_getElem? hq) hnew.behind)
      · have hkeys : (wrappers.map Prod.fst).Nodup := st.keys ▸ hnodup
        cases inj_on_of_nodup_map hkeys hw hmem rfl
        exact Nat.lt_irrefl _ hlt

theorem Stages.settled (st : Stages strategy p flagged tag handles existing wrappers q r s)
    (hp : p.WellFormed) (hexisting : q.existingWrappers = .ok existing) (hnodup : flagged.Nodup)
    (hresults : ∀ id ∈ flagged, p.checkResults id = .ok ()) (halloc : handles.alloc ∉ flagged)
    (hstore : handles.store ∉ flagged) : s.Settled flagged tag wrappers where
  imported := by
    intro id hid
    obtain ⟨f, hf, himported⟩ := st.imported id hid
    exact ⟨f, st.imported_kept hf himported, himported⟩
  results := by
    intro id hid
    obtain ⟨f, hf, himported⟩ := st.imported id hid
    exact checkResults_kept hf (hp.funcTypes f (mem_of_getElem? hf))
      (st.imported_kept hf himported) (st.extends hp.linked).types (hresults id hid)
  tagged := existingTag_grow (hostTag_existingTag st.tagged) st.shape.1 st.shape.2.1 st.shape.2.2
  keys := st.keys
  recognized := fun id w hw =>
    st.recognized hexisting hnodup halloc hstore hw
  walkable := st.walkable hp
  quiet := by
    intro id g b hg hkind hno seq index i func hreach hi hcallee
    have hnot := st.callee hg hkind hno hreach hi hcallee
    rw [← st.keys, ← Targets.get?_isSome_iff] at hnot
    simpa using hnot

end Stages

theorem checkHandles_handles {md : Metadata} {flagged : List FuncId} {handles : Handles}
    (h : p.checkHandles md flagged = .ok handles) :
    md.missing = [] ∧ md.alloc = some handles.alloc ∧ md.store = some handles.store := by
  obtain ⟨_, hjoined, h⟩ := of_bind h
  cases h
  have hmissing := (append_eq_nil_iff.mp (Fault.joined_eq_ok_iff.mp hjoined)).1
  refine ⟨hmissing, ?_⟩
  cases halloc : md.alloc <;> cases hstore : md.store <;> simp_all [Metadata.missing]

/-- A pass leaves nothing to do, where the handles are not flagged. -/
theorem guardImports_settled (hp : p.WellFormed) {md : Metadata} {adapters : List Adapter}
    {strategy : Strategy} (hflagged : md.flagged adapters ≠ [])
    (halloc : ∀ id ∈ md.flagged adapters, md.alloc ≠ some id)
    (hstore : ∀ id ∈ md.flagged adapters, md.store ≠ some id) {o : Outcome}
    (h : p.guardImports (some md) adapters strategy = .ok o) :
    md.missing = [] ∧ o.flagged = md.flagged adapters ∧
      ∃ tag, o.tag = some tag ∧ o.program.Settled (md.flagged adapters) tag o.wrappers := by
  have hresults : ∀ id ∈ md.flagged adapters, p.checkResults id = .ok () := by
    rw [guardImports_eq strategy hflagged] at h
    obtain ⟨_, hvet, -⟩ := of_bind h
    exact (vet_eq_ok hvet).2.2
  obtain ⟨handles, tag, q, existing, wrappers, r, count, s, hhandles, htag, hexisting, hwrap,
    hcalls, rfl⟩ := guardImports_eq_ok hflagged h
  obtain ⟨hmissing, halloc', hstore'⟩ := checkHandles_handles hhandles
  have st := stages_of_ok hp hflagged hhandles htag hexisting hwrap hcalls
  exact ⟨hmissing, rfl, tag, rfl, st.settled hp hexisting (md.flagged_nodup adapters) hresults
    (fun hmem => halloc _ hmem halloc') (fun hmem => hstore _ hmem hstore')⟩

/-- A pass over what a pass has left finds the tag and the wrappers, and changes nothing. -/
theorem guardImports_again {p : Program} (hp : p.WellFormed) {md : Metadata}
    {adapters : List Adapter} {strategy : Strategy}
    (halloc : ∀ id ∈ md.flagged adapters, md.alloc ≠ some id)
    (hstore : ∀ id ∈ md.flagged adapters, md.store ≠ some id) {o : Outcome}
    (h : p.guardImports (some md) adapters strategy = .ok o) (found : Option TagId)
    {again : Strategy} (hagain : again ≠ .none) :
    o.program.guardImports (some { md with tag := found }) adapters again =
      .ok ⟨o.program, o.tag, o.flagged, o.wrappers, o.flagged, 0⟩ := by
  by_cases hflagged : md.flagged adapters = []
  · have hnil (p : Program) (found : Option TagId) (strategy : Strategy) :
        p.guardImports (some { md with tag := found }) adapters strategy =
          .ok ⟨p, none, [], [], [], 0⟩ := by
      have hflagged : ({ md with tag := found } : Metadata).flagged adapters = [] := hflagged
      simp only [guardImports, hflagged, ↓reduceIte]
      rfl
    cases (hnil p md.tag strategy).symm.trans h
    exact hnil p found again
  · obtain ⟨hmissing, hsame, tag, htag, hsettled⟩ :=
      guardImports_settled hp hflagged halloc hstore h
    have hkept : o.program.Settled (({ md with tag := found } : Metadata).flagged adapters) tag
        o.wrappers := hsettled
    rw [htag, hsame]
    exact hkept.guardImports hflagged hmissing hagain

theorem oneCaller_again :
    let md : Metadata := { catching := [7], table := some 0, alloc := some 1, store := some 1 }
    ∃ o, oneCaller.guardImports (some md) [⟨0, 0, 7⟩] .legacy = .ok o ∧
      o.program.guardImports (some { md with tag := o.tag }) [⟨0, 0, 7⟩] .modern =
        .ok ⟨o.program, o.tag, [0], o.wrappers, [0], 0⟩ := by
  intro md
  have hflagged : md.flagged [⟨0, 0, 7⟩] = [0] := by cbv
  have hok : (oneCaller.guardImports (some md) [⟨0, 0, 7⟩] .legacy).map Outcome.flagged =
      .ok [0] := by
    simp only [guardImports, hflagged]
    rfl
  cases hrun : oneCaller.guardImports (some md) [⟨0, 0, 7⟩] .legacy with
  | error e =>
    rw [hrun] at hok
    cases hok
  | ok o =>
    rw [hrun] at hok
    have hsame : o.flagged = [0] := Except.ok.inj hok
    have hagain := guardImports_again oneCaller_wellFormed (by simp [hflagged, md])
      (by simp [hflagged, md]) hrun o.tag (show Strategy.modern ≠ .none by decide)
    rw [hsame] at hagain
    exact ⟨o, rfl, hagain⟩

end Program

end HostCatch
