import HostCatch.Proofs.Guard.Guarded
import HostCatch.Proofs.Guard.Wrapping
import HostCatch.Proofs.Program.Linking

namespace HostCatch

open List

variable {types : List Signature} {results : List ValType}

/-- A block of this type takes nothing and gives the results. -/
def BlockType.Describes (types : List Signature) (results : List ValType) : BlockType → Prop
  | .empty => results = []
  | .single result => results = [result]
  | .multi type => types[type]? = some ⟨[], results⟩

theorem BlockType.Describes.grow {types' : List Signature} {t : BlockType}
    (h : t.Describes types results) (htypes : types <+: types') : t.Describes types' results := by
  cases t with
  | empty => exact h
  | single => exact h
  | multi type => exact getElem?_of_isPrefix htypes h

theorem Program.resultBlock_describes (types : List Signature) (results : List ValType) :
    (resultBlock types results).1.Describes (types ++ (resultBlock types results).2) results := by
  unfold resultBlock
  split
  next => rfl
  next => rfl
  next =>
    split
    next type htype =>
      obtain ⟨hlt, hsig, -⟩ := findIdx?_eq_some_iff_getElem.mp htype
      rw [append_nil]
      exact (getElem?_eq_getElem hlt).trans (congrArg some (of_decide_eq_true hsig))
    next => simp [BlockType.Describes]

theorem Program.resultBlock_known (h : ∀ v ∈ results, v.IsKnown) :
    ∀ t ∈ (resultBlock types results).2, t.IsKnown := by
  unfold resultBlock
  split
  next => nofun
  next => nofun
  next =>
    split
    next => nofun
    next => simpa [Signature.IsKnown] using h

namespace Program

variable {handles : Handles} {locals : List ValType} {defaults : List Instr} {seqs : List Seq}

/-- A function that was made to wrap an import, with the recipe for it, where these are the types
and variables. -/
structure Crafted (tag : TagId) (handles : Handles) (types : List Signature)
    (locals : List ValType) (id : FuncId) (g : Function) (r : Recipe) (defaults : List Instr)
    (seqs : List Seq) : Prop where
  callee : r.callee = id
  tag : r.tag = tag
  handles : r.handles = handles
  type : ∃ sig, types[g.type]? = some sig ∧ r.results = sig.results ∧
    r.params.length = sig.params.length
  kind : g.kind = .defined ⟨r.params, [r.exn, r.slot], seqs, 0⟩
  nodup : (r.params ++ [r.exn, r.slot]).Nodup
  exn : locals[r.exn]? = some .externRef
  slot : locals[r.slot]? = some .i32
  values : r.results.mapM defaultValue = .ok defaults
  code : seqs = r.modernSeqs g.type defaults ∨ ∃ handlerType tried,
    seqs = r.legacySeqs g.type handlerType tried defaults ∧ tried.Describes types r.results
  blocks : ∀ s ∈ seqs, ∀ type, s.type = .multi type → type < types.length

theorem Crafted.grow {tag : TagId} {types' : List Signature} {locals' : List ValType} {id : FuncId}
    {g : Function} {r : Recipe} (h : Crafted tag handles types locals id g r defaults seqs)
    (htypes : types <+: types') (hlocals : locals <+: locals') :
    Crafted tag handles types' locals' id g r defaults seqs := by
  obtain ⟨sig, hsig, hresults, hparams⟩ := h.type
  refine { h with
    type := ⟨sig, getElem?_of_isPrefix htypes hsig, hresults, hparams⟩
    exn := getElem?_of_isPrefix hlocals h.exn
    slot := getElem?_of_isPrefix hlocals h.slot
    code := h.code.imp_right ?_
    blocks := fun s hs type htype => Nat.lt_of_lt_of_le (h.blocks s hs type htype) htypes.length_le }
  rintro ⟨handlerType, tried, hseqs, htried⟩
  exact ⟨handlerType, tried, hseqs, htried.grow htypes⟩

theorem Crafted.instr {tag : TagId} {id : FuncId} {g : Function} {r : Recipe}
    (h : Crafted tag handles types locals id g r defaults seqs) {s : Seq} (hs : s ∈ seqs)
    {i : Instr} (hi : i ∈ s.instrs) : i = .block 1 ∨ i = .tryTable 2 [⟨0x00, r.tag, 1⟩] ∨
      i = .tryCatch 2 [⟨some r.tag, 1⟩] none ∨ r.Leaf i := by
  rcases h.code with rfl | ⟨handlerType, tried, rfl, -⟩
  · exact (Recipe.modernSeqs_instr h.values hs hi).imp_right (.imp_right .inr)
  · exact .inr (.inr (Recipe.legacySeqs_instr h.values hs hi))

variable {strategy : Strategy} {tag : TagId} {handles : Handles} {existing targets : Targets}
variable {ids : List FuncId} {p q : Program}
  {more : List Signature} {defaults : List Instr} {seqs : List Seq}

variable {type : TypeId} {r : Recipe} {sig : Signature}

theorem Makes.describes (h : Makes types type r defaults strategy more seqs) :
    seqs = r.modernSeqs type defaults ∨ ∃ handlerType tried,
      seqs = r.legacySeqs type handlerType tried defaults ∧
        tried.Describes (types ++ more) r.results := by
  cases h with
  | modern => exact .inl rfl
  | @legacy tried more hblock =>
    refine .inr ⟨_, tried, rfl, ?_⟩
    have hdescribes := resultBlock_describes (types ++ [⟨[.externRef], r.results⟩]) r.results
    rwa [hblock, append_assoc] at hdescribes

theorem Makes.blocks (h : Makes types type r defaults strategy more seqs)
    (htype : type < types.length) :
    ∀ s ∈ seqs, ∀ t, s.type = .multi t → t < (types ++ more).length := by
  rw [length_append]
  cases h with
  | modern => simpa [Recipe.modernSeqs] using htype
  | @legacy tried more hblock =>
    have hdescribes := resultBlock_describes (types ++ [⟨[.externRef], r.results⟩]) r.results
    rw [hblock, append_assoc] at hdescribes
    simp only [Recipe.legacySeqs, forall_mem_cons, BlockType.multi.injEq, forall_eq']
    refine ⟨Nat.lt_add_right _ htype, by simp, ?_, by simp⟩
    rintro t rfl
    have hlt := lt_of_getElem? hdescribes
    simpa using hlt

theorem Makes.known (h : Makes types type r defaults strategy more seqs)
    (hresults : ∀ v ∈ r.results, v.IsKnown) : ∀ t ∈ more, t.IsKnown := by
  cases h with
  | modern => nofun
  | @legacy tried more hblock =>
    intro t ht
    rcases mem_cons.mp ht with rfl | ht
    · intro v hv
      rcases mem_cons.mp hv with rfl | hv
      · nofun
      · exact hresults v hv
    · have hknown : ∀ t ∈ (resultBlock (types ++ [⟨[.externRef], r.results⟩]) r.results).2,
          t.IsKnown := resultBlock_known hresults
      rw [hblock] at hknown
      exact hknown t ht

/-- What is added for an import is a wrapper made by the recipe. -/
theorem withWrapper_crafted {id : FuncId} {f : Function} (hsig : p.types[f.type]? = some sig)
    (hdefaults : sig.results.mapM defaultValue = .ok defaults)
    (hmakes : Makes p.types f.type (p.recipe id sig tag handles) defaults strategy types seqs) :
    Crafted tag handles (p.types ++ types) (p.locals ++ sig.params ++ [.i32, .externRef]) id
      (p.wrapper id f (p.recipe id sig tag handles) seqs) (p.recipe id sig tag handles) defaults seqs where
  callee := rfl
  tag := rfl
  handles := rfl
  type := ⟨sig, getElem?_append_some _ hsig, rfl, by simp [recipe]⟩
  kind := rfl
  nodup := by
    have hfresh := p.recipe_fresh id sig tag handles
    refine Nodup.append (nodup_range' ..) ?_ ?_
    · simpa using hfresh.apart.symm
    · rw [disjoint_cons_right, disjoint_cons_right]
      exact ⟨hfresh.exn, hfresh.slot, disjoint_nil_right _⟩
  exn := by
    have hindex : (p.recipe id sig tag handles).exn = (p.locals ++ sig.params).length + 1 := by
      simp [recipe]
    rw [hindex, getElem?_append_right (Nat.le_add_right _ _), Nat.add_sub_cancel_left]
    rfl
  slot := by
    simp [recipe]
  values := hdefaults
  code := hmakes.describes
  blocks := hmakes.blocks (lt_of_getElem? hsig)

theorem Made.crafted {id w : FuncId} {now : Program} {f : Function}
    (h : Made strategy tag handles p q id w now f sig defaults types seqs) :
    Crafted tag handles q.types q.locals id (now.wrapper id f (now.recipe id sig tag handles) seqs)
      (now.recipe id sig tag handles) defaults seqs :=
  (withWrapper_crafted h.type h.values h.makes).grow h.after.types h.after.locals

theorem Wraps.known (h : Wraps strategy tag handles existing ids p targets q)
    (hknown : ∀ t ∈ p.types, t.IsKnown) : ∀ t ∈ q.types, t.IsKnown := by
  induction h with
  | nil => exact hknown
  | reused _ _ ih => exact ih hknown
  | @made _ _ p _ sig _ _ _ _ _ _ _ hsig _ hmakes _ ih =>
    refine ih fun t ht => ?_
    rcases mem_append.mp ht with ht | ht
    · exact hknown t ht
    · exact hmakes.known (fun v hv => hknown sig (mem_of_getElem? hsig) v
        (mem_append_right _ hv)) t ht

/-- The functions that are added are wrappers, and known types are added with them. -/
theorem Wraps.crafted (h : Wraps strategy tag handles existing ids p targets q)
    (hknown : ∀ t ∈ p.types, t.IsKnown) :
    ∃ types locals funcs, q = { p with
        types := p.types ++ types, locals := p.locals ++ locals, funcs := p.funcs ++ funcs } ∧
      (∀ t ∈ types, t.IsKnown) ∧
      ∀ n g, funcs[n]? = some g → ∃ id r defaults seqs, (id, p.funcs.length + n) ∈ targets ∧
        Crafted tag handles q.types q.locals id g r defaults seqs := by
  have hall := h.known hknown
  obtain ⟨types, locals, funcs, rfl, hadded⟩ := h.added
  refine ⟨types, locals, funcs, rfl, fun t ht => hall t (mem_append_right _ ht), fun n g hg => ?_⟩
  obtain ⟨id, hmem, -, now, f, sig, defaults, types', seqs, hmade, rfl⟩ := hadded n g hg
  exact ⟨id, _, defaults, seqs, hmem, hmade.crafted⟩

end Program

/-- What a function calls in place of another: its target, unless the caller is itself one. -/
def Targets.redirect (t : Targets) (caller func : FuncId) : FuncId :=
  if t.hasTarget caller then func else (t.get? func).getD func

theorem Instr.retargeted_eq_redirect (t : Targets) (i : Instr) :
    i.retargeted t = i.redirect fun func => (t.get? func).getD func := by
  cases i with
  | call func =>
    simp only [retargeted, callee?, Option.bind_some, redirect]
    cases t.get? func <;> rfl
  | returnCall func =>
    simp only [retargeted, callee?, Option.bind_some, redirect]
    cases t.get? func <;> rfl
  | _ => rfl

/-- Where all sequences are reached, retargeting redirects every call. -/
theorem Body.Retargeted.eq_redirect {t : Targets} {b c : Body} (h : Body.Retargeted t b c)
    (hb : Nested b.seqs) (hentry : b.entry = 0) :
    c = b.redirect fun func => (t.get? func).getD func := by
  have hseqs : c.seqs = b.seqs.map (Seq.redirect fun func => (t.get? func).getD func) := by
    refine ext_getElem? fun n => ?_
    have hsame : Seq.retargeted t = Seq.redirect fun func => (t.get? func).getD func := by
      funext s
      simp only [Seq.retargeted, Seq.redirect, funext (Instr.retargeted_eq_redirect t)]
    by_cases hn : n < b.seqs.length
    · have hreach : b.Reaches n := by
        unfold Body.Reaches
        rw [hentry]
        exact Body.reaches_of_nested hb hn
      rw [h.reached n hreach, getElem?_map, hsame]
    · have hnone : b.seqs[n]? = none := getElem?_eq_none (Nat.le_of_not_lt hn)
      rw [getElem?_map, hnone, Option.map_none]
      by_cases hreach : b.Reaches n
      · rw [h.reached n hreach, hnone, Option.map_none]
      · rw [h.others n hreach, hnone]
  obtain ⟨params, locals, seqs, entry⟩ := c
  simp only [Body.redirect]
  rw [← hseqs]
  cases h.params
  cases h.locals
  cases h.entry
  rfl

theorem Function.redirect_same {κ : FuncId → FuncId} (h : ∀ func, κ func = func) (f : Function) :
    f.redirect κ = f := by
  obtain rfl : κ = id := funext h
  obtain ⟨name, type, kind⟩ := f
  cases kind <;> simp [Function.redirect, Body.redirect, Seq.redirect_id]

theorem Function.Retargeted.eq_redirect {t : Targets} {id : FuncId} {f g : Function}
    (h : Function.Retargeted t id f g)
    (hf : ∀ b, f.kind = .defined b → Nested b.seqs ∧ b.entry = 0) : g = f.redirect (t.redirect id) := by
  cases h with
  | kept hkept =>
    rcases hkept with htarget | himported
    · exact (Function.redirect_same (fun func => by simp [Targets.redirect, htarget]) f).symm
    · obtain ⟨name, type, kind⟩ := f
      cases kind with
      | imported entry => rfl
      | defined b => simp [Function.isImported, Function.import?] at himported
  | @changed b c hno hkind hbodies =>
    obtain ⟨hnested, hentry⟩ := hf b hkind
    have hredirect : t.redirect id = fun func => (t.get? func).getD func := by
      funext func
      simp [Targets.redirect, hno]
    simp only [Function.redirect, hkind, hredirect, hbodies.eq_redirect hnested hentry]

namespace Program

variable {p : Program} {tag : TagId} {new : Option TagImport}

/-- Where the tag of host exceptions comes from: it is there, or it is imported behind all imports.
-/
inductive Provides (p : Program) (tag : TagId) (types : List Signature) : Option TagImport → Prop
  | found : p.existingTag = .ok (some tag) → Provides p tag types none
  | imported {type} : p.existingTag = .ok none → tag = p.tags.length →
      types[type]? = some hostTagSignature →
      Provides p tag types (some ⟨tagModule, tagName, type⟩)

theorem Provides.grow {types' : List Signature} (h : p.Provides tag types new)
    (htypes : types <+: types') : p.Provides tag types' new := by
  cases h with
  | found hfound => exact .found hfound
  | imported hnone htag htype => exact .imported hnone htag (getElem?_of_isPrefix htypes htype)

theorem Provides.type_lt (h : p.Provides tag types new) : ∀ t ∈ new, t.type < types.length := by
  intro t ht
  cases h with
  | found => cases ht
  | imported _ _ htype =>
    cases ht
    exact lt_of_getElem? htype

/-- The tag was there, or one import provides it. -/
theorem hostTag_provides {q : Program} (h : p.hostTag = .ok (tag, q)) :
    ∃ new types, q = { p.withTag new with types := p.types ++ types } ∧
      p.Provides tag (p.types ++ types) new ∧ ∀ t ∈ types, t = hostTagSignature := by
  obtain ⟨found, hfound, h⟩ := of_bind h
  cases found with
  | some found =>
    cases h
    exact ⟨none, [], by simp [withTag], .found hfound, nofun⟩
  | none =>
    obtain ⟨types, htypes, htype, hadded⟩ := addType_spec p hostTagSignature
    simp only [pure_eq_ok_iff, Prod.mk.injEq, importTag] at h
    obtain ⟨rfl, rfl⟩ := h
    refine ⟨some ⟨tagModule, tagName, (p.addType hostTagSignature).1⟩, types, ?_,
      .imported hfound (by rw [htypes]) htype, hadded⟩
    rw [htypes]
    rfl

theorem Altered.paired {p' : Program} {κ : FuncId → FuncId → FuncId} {more : List Function}
    (ha : p.Altered p' κ new types more) (hp : p.Paired) : p'.Paired := by
  have hfuncs : Links (p'.funcs.map Function.import?) Import.func? p.imports := by
    have hkept : (p.funcs.mapIdx fun id f => f.redirect (κ id)).map Function.import? =
        p.funcs.map Function.import? := by
      refine ext_getElem? fun k => ?_
      simp only [getElem?_map, getElem?_mapIdx, Option.map_map, Function.comp_def,
        Function.import?_redirect]
    rw [ha.funcs_eq, map_append, hkept]
    refine hp.funcs.append (forall_mem_map.mpr fun f hf => ?_)
    simpa [Function.isImported] using ha.defined f hf
  have htables : p'.tables = p.tables := ha.tables_eq
  cases new with
  | none =>
    have himports : p'.imports = p.imports := ha.imports_eq.trans (append_nil _)
    have htags : p'.tags = p.tags := ha.tags_eq.trans (append_nil _)
    refine ⟨himports ▸ hfuncs, ?_, ?_⟩
    · rw [himports, htables]
      exact hp.tables
    · rw [himports, htags]
      exact hp.tags
  | some t =>
    have himports : p'.imports = p.imports ++ [⟨t.module, t.name, .tag p.tags.length⟩] :=
      ha.imports_eq
    have htags : p'.tags = p.tags ++ [⟨t.type, 0, some p.imports.length⟩] := ha.tags_eq
    refine ⟨himports ▸ hfuncs.skip rfl, ?_, ?_⟩
    · rw [himports, htables]
      exact hp.tables.skip rfl
    · rw [himports, htags, map_append]
      exact hp.tags.concat (by simp [Import.tag?])

/-- What a pass makes of a program that was read: with further types, variables and functions, and
perhaps one more imported tag, it calls wrappers in place of what they wrap. -/
structure Rewrapped (p : Program) (o : Outcome) (tag : TagId) (handles : Handles)
    (new : Option TagImport) (types : List Signature) (more : List Function) : Prop where
  altered : p.Altered o.program o.wrappers.redirect new types more
  keys : o.wrappers.map Prod.fst = o.flagged
  nodup : o.flagged.Nodup
  tagged : p.Provides tag (p.types ++ types) new
  crafted : ∀ n g, more[n]? = some g → ∃ id r defaults seqs,
    (id, p.funcs.length + n) ∈ o.wrappers ∧
      Crafted tag handles o.program.types o.program.locals id g r defaults seqs

section Read

variable {m : Wire.Module} {p u v : Program} {tables : List Table} {exports : List Export}
variable {strategy : Strategy} {flagged : List FuncId} {tag : TagId} {handles : Handles}
variable {existing wrappers : Targets} {q r s : Program}

/-- The functions from before with their calls redirected, then the wrappers. -/
theorem Stages.funcs_eq (st : Stages strategy p flagged tag handles existing wrappers q r s)
    (hr : ReadFrom m p u v tables exports) {more : List Function}
    (hmore : r.funcs = p.funcs ++ more)
    (htarget : ∀ n g, more[n]? = some g → wrappers.hasTarget (p.funcs.length + n) = true) :
    s.funcs = p.funcs.mapIdx (fun id f => f.redirect (wrappers.redirect id)) ++ more := by
  obtain ⟨funcs, hs, hlength, hretarget⟩ := st.retargeted
  refine ext_getElem? fun n => ?_
  rw [getElem?_append, length_mapIdx]
  split
  next hn =>
    have hf := getElem?_eq_getElem hn
    obtain ⟨g, hg, hfg⟩ := st.function hf
    rw [hg, getElem?_mapIdx, hf, Option.map_some, hfg.eq_redirect fun b hkind =>
      hr.nested (getElem_mem hn) hkind]
  next hn =>
    obtain ⟨k, rfl⟩ := Nat.exists_eq_add_of_le (Nat.le_of_not_lt hn)
    rw [Nat.add_sub_cancel_left]
    cases hk : more[k]? with
    | some g =>
      refine st.wrapper_kept (htarget k g hk) ?_
      rw [hmore, getElem?_append_right (Nat.le_add_right _ _), Nat.add_sub_cancel_left, hk]
    | none =>
      refine getElem?_eq_none ?_
      have := getElem?_eq_none_iff.mp hk
      rw [hs, hlength, hmore, length_append]
      omega

/-- Calls go to functions that are there. -/
theorem Stages.redirect_lt (st : Stages strategy p flagged tag handles existing wrappers q r s)
    (hp : p.WellFormed) (hsize : p.funcs.length ≤ s.funcs.length) (id : FuncId) {func : FuncId}
    (hfunc : func < p.funcs.length) : wrappers.redirect id func < s.funcs.length := by
  unfold Targets.redirect
  split
  next => exact Nat.lt_of_lt_of_le hfunc hsize
  next =>
    cases hget : wrappers.get? func with
    | none => exact Nat.lt_of_lt_of_le hfunc hsize
    | some w =>
      obtain ⟨g, hg, -⟩ := st.wrapper hp (Targets.mem_of_get? hget)
      exact lt_of_getElem? hg

/-- Every outcome for a program that was read alters it in this way. -/
theorem ReadFrom.rewrapped (hr : ReadFrom m p u v tables exports) {md : Metadata}
    {adapters : List Adapter} (hflagged : md.flagged adapters ≠ []) {o : Outcome}
    (h : p.guardImports (some md) adapters strategy = .ok o) :
    ∃ tag handles new types more, o.tag = some tag ∧ o.flagged = md.flagged adapters ∧
      p.checkHandles md (md.flagged adapters) = .ok handles ∧
      p.Rewrapped o tag handles new types more := by
  have hp := hr.wellFormed
  obtain ⟨handles, tag, q, existing, wrappers, r, count, s, hhandles, htag, hexisting, hwrap,
    hcalls, rfl⟩ := guardImports_eq_ok hflagged h
  have st := stages_of_ok hp hflagged hhandles htag hexisting hwrap hcalls
  have hfuncs := st.funcs_tagged
  obtain ⟨new, added, hq, hprovides, hadded⟩ := hostTag_provides htag
  have hqtypes : q.types = p.types ++ added := by rw [hq]
  have haddedKnown : ∀ t ∈ added, t.IsKnown := by
    intro t ht
    rw [hadded t ht]
    simp [hostTagSignature, Signature.IsKnown, ValType.IsKnown, ValType.externRef]
  have hknown : ∀ t ∈ q.types, t.IsKnown := by
    intro t ht
    rw [hqtypes] at ht
    rcases mem_append.mp ht with ht | ht
    · exact hr.typesKnown t ht
    · exact haddedKnown t ht
  obtain ⟨types, locals, more, hrmore, htypes, hcrafted⟩ :=
    (wrapAll_eq_ok_iff.mp hwrap).crafted hknown
  have hmore : r.funcs = p.funcs ++ more := by rw [hrmore, hfuncs]
  have htarget : ∀ n g, more[n]? = some g → wrappers.hasTarget (p.funcs.length + n) = true := by
    intro n g hg
    obtain ⟨id, _, _, _, hmem, -⟩ := hcrafted n g hg
    rw [hfuncs] at hmem
    exact Targets.hasTarget_of_mem hmem
  have hsfuncs := st.funcs_eq hr hmore htarget
  obtain ⟨funcs, hs, -, -⟩ := st.retargeted
  have hsize : s.funcs.length = p.funcs.length + more.length := by
    rw [hsfuncs, length_append, length_mapIdx]
  have hgrown : p.Provides tag (p.types ++ (added ++ types)) new := by
    rw [← append_assoc]
    exact hprovides.grow (prefix_append _ _)
  refine ⟨tag, handles, new, added ++ types, more, rfl, rfl, hhandles, ⟨?_, ?_, ?_, ?_, ?_, ?_⟩,
    st.keys, md.flagged_nodup adapters, hgrown, ?_⟩
  · rw [← hsfuncs, ← append_assoc, ← hqtypes]
    rw [hs, hrmore, hq]
  · have hplocals : p.locals = q.locals := by rw [hq, withTag_eq]
    rw [hs, hrmore, hplocals]
    exact prefix_append _ _
  · intro id func hfunc
    rw [← hsize]
    exact st.redirect_lt hp (by omega) id hfunc
  · intro t ht
    rcases mem_append.mp ht with ht | ht
    · exact haddedKnown t ht
    · exact htypes t ht
  · intro g hg
    obtain ⟨n, hn⟩ := getElem?_of_mem hg
    obtain ⟨_, _, _, _, -, hc⟩ := hcrafted n g hn
    simp [Function.isImported, Function.import?, hc.kind]
  · rw [← length_append]
    exact hgrown.type_lt
  · intro n g hg
    obtain ⟨id, r', defaults, seqs, hmem, hc⟩ := hcrafted n g hg
    rw [hfuncs] at hmem
    rw [hs]
    exact ⟨id, r', defaults, seqs, hmem, hc⟩

end Read

end Program

end HostCatch
