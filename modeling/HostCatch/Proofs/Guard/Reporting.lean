import HostCatch.Proofs.Guard.Aborting
import HostCatch.Proofs.Guard.CallTypes
import HostCatch.Proofs.Guard.Framing
import HostCatch.Proofs.Program.Listing

namespace HostCatch

open List

namespace Wire

/-- The code that calls a function with the first `arity` variables. -/
def forwarding (func : UInt32) (arity : Nat) : List Instr :=
  (List.range arity).map (fun n => ⟨0x20, .localVar (UInt32.ofNat n)⟩) ++ [⟨0x10, .call func⟩]

/-- Code that calls a function inside a construct in which exceptions of a tag are caught. -/
inductive Catches (func tag : UInt32) (arity : Nat) : List Instr → Prop
  | modern (handler) : Catches func tag arity (⟨0x02, .block (-17)⟩ ::
      ⟨0x1F, .tryTable (-64) [⟨0x00, tag, 0⟩]⟩ :: forwarding func arity ++
      [⟨0x0F, .none⟩, ⟨0x0B, .none⟩, ⟨0x00, .none⟩, ⟨0x0B, .none⟩] ++ handler)
  | legacy (type handler) : Catches func tag arity
      (⟨0x06, .block type⟩ :: forwarding func arity ++ ⟨0x07, .throw tag⟩ :: handler)

end Wire

theorem forall₂_append_left {α β : Type} {R : α → β → Prop} {as as' : List α} {bs : List β}
    (h : Forall₂ R (as ++ as') bs) :
    ∃ cs ds, bs = cs ++ ds ∧ Forall₂ R as cs ∧ Forall₂ R as' ds := by
  induction as generalizing bs with
  | nil => exact ⟨[], bs, rfl, .nil, h⟩
  | cons a as ih =>
    obtain ⟨b, rest, hab, hrest, rfl⟩ := forall₂_cons_left_iff.mp h
    obtain ⟨cs, ds, rfl, hcs, hds⟩ := ih hrest
    exact ⟨b :: cs, ds, rfl, .cons hab hcs, hds⟩

namespace Emitting

variable {w : Emitting} {r : Recipe} {labels : List SeqId} {xs : List Wire.Instr}

theorem funcIndex_eq {func : FuncId} {k : UInt32} (h : w.funcIndex func = .ok k) :
    k = Numbering.indexIn w.numbering.funcs func := by
  have hindex := funcIndex_eq_ok h
  unfold Numbering.index at hindex
  split at hindex
  next => exact (Except.ok.inj hindex).symm
  next => cases hindex

theorem forwarding_eq (hnodup : w.slots.Nodup) (hparams : r.params <+: w.slots)
    (h : Forall₂ (w.Stands labels) r.forwarding xs) :
    xs = Wire.forwarding (Numbering.indexIn w.numbering.funcs r.callee) r.params.length := by
  obtain ⟨gets, calls, rfl, hgets, hcalls⟩ := forall₂_append_left h
  have hgets := forall₂_map_left_iff.mp hgets
  refine congrArg₂ (· ++ ·) (ext_getElem? fun n => ?_) ?_
  · rw [getElem?_map]
    cases hvar : r.params[n]? with
    | none =>
      have hn := getElem?_eq_none_iff.mp hvar
      rw [getElem?_eq_none (hgets.length_eq ▸ hn), getElem?_eq_none (by simpa using hn)]
      rfl
    | some var =>
      obtain ⟨x, hx, hget⟩ := forall₂_getElem? hgets hvar
      cases hget with
      | localGet hk =>
        cases (slot_eq hnodup (getElem?_of_isPrefix hparams hvar)).symm.trans hk
        rw [hx, getElem?_range (lt_of_getElem? hvar)]
        rfl
  · obtain ⟨x, _, hcall, hnil, rfl⟩ := forall₂_cons_left_iff.mp hcalls
    cases hnil
    cases hcall with
    | call hk => rw [funcIndex_eq hk]

end Emitting

namespace Program

section Written

variable {p' : Program} {tag : TagId} {handles : Handles} {id func : FuncId} {g : Function} {r : Recipe}
variable {defaults : List Instr} {seqs : List Seq} {extra : List ValType} {code : Wire.FuncBody}

/-- The code of a wrapper catches the tag around a call of the import. -/
theorem Crafted.catches (hc : Crafted tag handles p'.types p'.locals id g r defaults seqs)
    (hwrites : p'.WritesBody extra func ⟨r.params, [r.exn, r.slot], seqs, 0⟩ code) :
    ∃ k is, p'.numbering.tag tag = .ok k ∧ Wire.encodeInstrs is = .ok code.code ∧
      Wire.Catches (Numbering.indexIn p'.numbering.funcs id) k r.params.length is := by
  obtain ⟨-, ws, hencode, hcodes⟩ := hc.written hwrites
  rcases hc.code with hseqs | ⟨_, tried, hseqs, -⟩
  · obtain ⟨k, guarded, keep, hk, hguarded, -, rfl⟩ := Emitting.modern_code hseqs hc.values hcodes
    obtain ⟨forward, rets, rfl, hforward, hrets⟩ := forall₂_append_left hguarded
    obtain ⟨_, _, hret, hnil, rfl⟩ := forall₂_cons_left_iff.mp hrets
    cases hret
    cases hnil
    have hwritten := Emitting.forwarding_eq hc.nodup (prefix_append _ _) hforward
    refine ⟨k, _, hc.tag ▸ hk, hencode, ?_⟩
    rw [hwritten, hc.callee]
    simpa [Emitting.close] using Wire.Catches.modern (keep ++ [Emitting.close])
  · obtain ⟨t, k, forward, keep, -, hk, hforward, -, rfl⟩ :=
      Emitting.legacy_code hseqs hc.values hcodes
    have hwritten := Emitting.forwarding_eq hc.nodup (prefix_append _ _) hforward
    refine ⟨k, _, hc.tag ▸ hk, hencode, ?_⟩
    rw [hwritten, hc.callee]
    simpa [Emitting.close] using Wire.Catches.legacy t (keep ++ [Emitting.close, Emitting.close])

theorem WritesBody.calls {p : Program} {b : Body} (h : p.WritesBody extra id b code)
    (hcalls : b.Calls func) : ∃ is, Wire.encodeInstrs is = .ok code.code ∧
      ⟨0x10, .call (Numbering.indexIn p.numbering.funcs func)⟩ ∈ is := by
  obtain ⟨visits, ws, hwalk, hencode, hlists⟩ := h.lists
  obtain ⟨seq, index, hreach, hinstr⟩ := hcalls
  have hvisit : (⟨seq, index, .call func⟩ : Visit) ∈ visits :=
    (Body.mem_walk_iff hwalk).mpr ⟨hreach, hinstr⟩
  obtain ⟨x, hx, hbegins⟩ := hlists.exists_of_mem (mem_map_of_mem hvisit)
  obtain ⟨k, hk, rfl⟩ := hbegins.of_call
  refine ⟨_, hencode, mem_append_left _ ?_⟩
  rwa [← Emitting.funcIndex_eq hk]

end Written

theorem idxOf_of_getElem? {order : List Nat} (h : order.Nodup) {n id : Nat}
    (hid : order[n]? = some id) : order.idxOf id = n := by
  obtain ⟨hlt, hget⟩ := List.getElem?_eq_some_iff.mp hid
  rw [← hget, h.idxOf_getElem n hlt]

/-- Where the tag that a pass uses is written: one that it has imported stands behind the imported tags
from before. -/
def writtenTag (p : Program) (tag : TagId) : Nat :=
  if tag < p.tags.length then tag else (p.imports.filterMap Import.tag?).length

section Altered

variable {m out : Wire.Module} {p p' q s : Program} {tables : List Table} {exports : List Export}
variable {κ : FuncId → FuncId → FuncId} {new : Option TagImport} {types : List Signature}
variable {more : List Function} {bodies : List (UInt32 × Wire.FuncBody)} {extra : List ValType}
variable {names : List Wire.Custom} (ha : p.Altered p' κ new types more)
variable (hr : ReadFrom m p q s tables exports) (he : p'.Emits out bodies extra names)

include ha hr in
theorem Altered.carriesOthers : p'.CarriesOthers := by
  cases new with
  | none =>
    intro i hi
    rw [ha.imports_eq.trans (append_nil _)] at hi
    exact hr.carriesOthers i hi
  | some t => exact hr.carriesOthers.concat ha.imports_eq nofun

include ha hr he in
theorem Altered.loweredTo : p'.LoweredTo out :=
  he.loweredTo (ha.paired hr.paired) (ha.carriesOthers hr)

include ha hr he in
theorem Altered.funcSpace {id : FuncId} {f : Function} (hf : p'.funcs[id]? = some f) :
    ∃ extra origin, out.funcSpace[id]? = some (UInt32.ofNat f.type, origin) ∧
      p'.Comes (fun code => ∃ b, f.kind = .defined b ∧ p'.WritesBody extra id b code) f.import? origin := by
  obtain ⟨extra, -, -, hfinds⟩ := (ha.loweredTo hr he).funcs
  obtain ⟨type, origin, hat, rfl, hcomes⟩ := hfinds id f hf
  have hlt := lt_of_getElem? hf
  rw [ha.numbering_funcs hr.ordered, idxOf_of_getElem? nodup_range (getElem?_range hlt)] at hat
  exact ⟨extra, origin, hat, hcomes⟩

include ha hr he in
theorem Altered.tagSpace {tag : TagId} {t : Tag} (ht : p'.tags[tag]? = some t) :
    ∃ type origin, out.tagSpace[(tagOrder (p.imports.filterMap Import.tag?).length p.tags.length
      new).idxOf tag]? = some (type, origin) ∧ p'.Comes (fun _ => True) t.entry origin := by
  obtain ⟨type, origin, hat, -, hcomes⟩ := (ha.loweredTo hr he).tags.2 tag t ht
  rw [ha.numbering_tags hr.ordered] at hat
  exact ⟨type, origin, hat, hcomes⟩

end Altered

/-- What wraps an import after a pass: a function that was known as its wrapper before, as it was, or
one that was made for it. -/
theorem guardImports_wrapper {p : Program} (hp : p.WellFormed) {md : Metadata}
    {adapters : List Adapter} {strategy : Strategy} {o : Outcome}
    (hflagged : md.flagged adapters ≠ [])
    (h : p.guardImports (some md) adapters strategy = .ok o) {id w : FuncId}
    (hw : (id, w) ∈ o.wrappers) :
    (id ∈ o.reused ∧ p.Recognizes id w ∧ ∃ g, p.funcs[w]? = some g ∧ o.program.funcs[w]? = some g) ∨
    (id ∉ o.reused ∧ p.funcs.length ≤ w ∧ ∃ f sig g tag handles r defaults seqs, o.tag = some tag ∧
      p.funcs[id]? = some f ∧ p.types[f.type]? = some sig ∧ o.program.types[g.type]? = some sig ∧
      o.program.funcs[w]? = some g ∧ g.type = f.type ∧
      Crafted tag handles o.program.types o.program.locals id g r defaults seqs) := by
  obtain ⟨handles, tag, q, existing, wrappers, r, count, s, hhandles, htag, hexisting, hwrap,
    hcalls, rfl⟩ := guardImports_eq_ok hflagged h
  have st := stages_of_ok hp hflagged hhandles htag hexisting hwrap hcalls
  have hid : id ∈ md.flagged adapters := by
    rw [← st.keys]
    exact mem_map_of_mem hw
  have hmem : id ∈ (md.flagged adapters).filter (existing.get? · |>.isSome) ↔
      (existing.get? id).isSome = true := by
    simp [hid]
  obtain ⟨g, hg, -, ⟨hsome, hbefore⟩ | ⟨hnone, hge, -⟩⟩ := st.wrapper hp hw
  · refine .inl ⟨hmem.mpr hsome, ?_, g, hbefore, hg⟩
    rcases st.each id w hw with hold | ⟨hnone, -⟩
    · exact (recognizes_hostTag_iff hp.linked htag).mp
        ((existingWrappers_get?_eq_some_iff hexisting).mp hold)
    · rw [hnone] at hsome
      cases hsome
  · obtain ⟨f, sig, g', recipe, defaults, seqs, hf, hsig, hsame, hg', htype, hcrafted, -⟩ :=
      st.crafted hp (wrapAll_eq_ok_iff.mp hwrap) hw hnone
    refine .inr ⟨?_, hge, f, sig, g', tag, handles, recipe, defaults, seqs, rfl, hf, hsig, hsame, hg',
      htype, hcrafted⟩
    rw [hmem, hnone]
    exact Bool.false_ne_true

end Program

/-- What a report tells of an import, in a module that was written for the program `p`: the numbers are
indices of functions, of the import by this name and of a wrapper. One that was there is known as such in
`p` and calls the import. One that was made has the type of the import, calls it with all parameters and
catches exceptions of the tag. -/
structure Wrapped.Describes (w : Wrapped) (p : Program) (m : Wire.Module) (tag : Nat) : Prop where
  imported : ∃ type, m.funcSpace[w.func]? = some (type, .imported w.module w.name)
  found : w.existing = true → p.Recognizes w.func w.wrapper ∧
    ∃ type body is, m.funcSpace[w.wrapper]? = some (type, .defined body) ∧
      Wire.encodeInstrs is = .ok body.code ∧ ⟨0x10, .call (UInt32.ofNat w.func)⟩ ∈ is
  made : w.existing = false → p.funcs.length ≤ w.wrapper ∧
    ∃ type sig body is, m.funcSpace[w.func]? = some (type, .imported w.module w.name) ∧
      p.funcSignature? w.func = some sig ∧ m.funcSpace[w.wrapper]? = some (type, .defined body) ∧
      Wire.encodeInstrs is = .ok body.code ∧
      Wire.Catches (UInt32.ofNat w.func) (UInt32.ofNat tag) sig.params.length is

namespace Program

section Rewrapped

variable {m out : Wire.Module} {p q s : Program} {tables : List Table} {exports : List Export}
variable {o : Outcome} {tag : TagId} {handles : Handles} {new : Option TagImport}
variable {types : List Signature} {more : List Function} {bodies : List (UInt32 × Wire.FuncBody)}
variable {extra : List ValType} {names : List Wire.Custom}
variable (hx : p.Rewrapped o tag handles new types more) (hr : ReadFrom m p q s tables exports)
variable (he : o.program.Emits out bodies extra names)

omit hx he in
include hr in
theorem ReadFrom.definedTags_eq : (p.imports.filterMap Import.tag?).length ≤ p.tags.length ∧
    p.definedTags = List.range' (p.imports.filterMap Import.tag?).length
      (p.tags.length - (p.imports.filterMap Import.tag?).length) := by
  have hordered := positions_of_inOrder hr.ordered.tags
  simp only [Option.not_isSome] at hordered
  exact ⟨by simpa using hr.ordered.tags.length_le, hordered⟩

include hx hr

theorem Rewrapped.idxOf_tag : (tagOrder (p.imports.filterMap Import.tag?).length p.tags.length
    new).idxOf tag = p.writtenTag tag := by
  unfold writtenTag
  cases hx.tagged with
  | found hfound =>
    obtain ⟨t, -, ht, -⟩ := existingTag_isHostTag hr.wellFormed.linked hfound
    have hlt := lt_of_getElem? ht
    rw [if_pos hlt]
    exact idxOf_of_getElem? nodup_range (getElem?_range hlt)
  | imported _ htag =>
    rw [htag, if_neg (Nat.lt_irrefl _)]
    exact idxOf_of_getElem? (tagOrder_nodup hr.definedTags_eq.1 _) (by simp [tagOrder])

theorem Rewrapped.isHostTag : ∃ t entry, o.program.tags[tag]? = some t ∧ t.entry = some entry ∧
    o.program.imports[entry]? = some ⟨tagModule, tagName, .tag tag⟩ := by
  cases hx.tagged with
  | found hfound =>
    obtain ⟨t, entry, ht, hentry, hi, -⟩ := existingTag_isHostTag hr.wellFormed.linked hfound
    refine ⟨t, entry, ?_, hentry, ?_⟩
    · rw [hx.altered.tags_eq]
      exact getElem?_append_some _ ht
    · rw [hx.altered.imports_eq]
      exact getElem?_append_some _ hi
  | @imported type _ htag =>
    refine ⟨⟨type, 0, some p.imports.length⟩, p.imports.length, ?_, rfl, ?_⟩
    · rw [hx.altered.tags_eq, htag]
      exact getElem?_concat_length
    · rw [hx.altered.imports_eq, htag]
      exact getElem?_concat_length

theorem Rewrapped.funcIndex {id : FuncId} (hid : id < o.program.funcs.length) :
    Numbering.indexIn o.program.numbering.funcs id = UInt32.ofNat id := by
  rw [hx.altered.numbering_funcs hr.ordered, Numbering.indexIn_range hid]

theorem Rewrapped.tagIndex {k : UInt32} (hk : o.program.numbering.tag tag = .ok k) :
    k = UInt32.ofNat (p.writtenTag tag) := by
  rw [Numbering.tag, Numbering.index] at hk
  split at hk
  next =>
    cases hk
    rw [Numbering.indexIn, hx.altered.numbering_tags hr.ordered, hx.idxOf_tag hr]
  next => cases hk

include he

theorem Rewrapped.tag_written :
    ∃ type, out.tagSpace[p.writtenTag tag]? = some (type, .imported tagModule tagName) := by
  obtain ⟨t, entry, ht, hentry, hi⟩ := hx.isHostTag hr
  obtain ⟨type, origin, hat, hcomes⟩ := hx.altered.tagSpace hr he ht
  rw [hx.idxOf_tag hr] at hat
  rw [hentry] at hcomes
  cases hcomes with
  | imported hi' =>
    cases hi.symm.trans hi'
    exact ⟨type, hat⟩

/-- Where a tag is imported into a program that has tags of its own, the last of these has the index
that the new one has as an identifier. -/
theorem Rewrapped.tag_misplaced (hnone : p.existingTag = .ok none) (hdefined : p.definedTags ≠ []) :
    ∃ type, out.tagSpace[tag]? = some (type, .defined ()) := by
  cases hx.tagged with
  | found hfound => cases hfound.symm.trans hnone
  | imported _ htag =>
    obtain ⟨-, hlist⟩ := hr.definedTags_eq
    have hlt : (p.imports.filterMap Import.tag?).length < p.tags.length := by
      refine Nat.lt_of_not_le fun hle => hdefined ?_
      rw [hlist, Nat.sub_eq_zero_of_le hle]
      rfl
    have hmem : p.tags.length - 1 ∈ p.definedTags := by
      rw [hlist, mem_range'_1]
      omega
    obtain ⟨t, ht, hentry⟩ := mem_positions.mp hmem
    have hkept : o.program.tags[p.tags.length - 1]? = some t := by
      rw [hx.altered.tags_eq]
      exact getElem?_append_some _ ht
    obtain ⟨type, origin, hat, hcomes⟩ := hx.altered.tagSpace hr he hkept
    rw [idxOf_of_getElem? (tagOrder_nodup (Nat.le_of_lt hlt) _)
      (tagOrder_getElem? (Nat.le_of_lt hlt) (by omega) _), shiftTag, if_neg (by omega),
      Nat.sub_add_cancel (by omega), ← htag] at hat
    rw [Option.isNone_iff_eq_none.mp hentry] at hcomes
    cases hcomes
    exact ⟨type, hat⟩

/-- The identifier of the tag is its index just if the program had it already, or has no tags of its
own. -/
theorem Rewrapped.tag_written_iff :
    (∃ type, out.tagSpace[tag]? = some (type, .imported tagModule tagName)) ↔
      p.existingTag = .ok (some tag) ∨ p.definedTags = [] := by
  constructor
  · rintro ⟨type, hat⟩
    cases hx.tagged with
    | found hfound => exact .inl hfound
    | imported hnone =>
      refine .inr (Classical.byContradiction fun hdefined => ?_)
      obtain ⟨type', hat'⟩ := hx.tag_misplaced hr he hnone hdefined
      cases hat.symm.trans hat'
  · intro hplaced
    have hsame : p.writtenTag tag = tag := by
      unfold writtenTag
      split
      next => rfl
      next hge =>
        cases hx.tagged with
        | found hfound =>
          obtain ⟨t, -, ht, -⟩ := existingTag_isHostTag hr.wellFormed.linked hfound
          exact absurd (lt_of_getElem? ht) hge
        | imported hnone htag =>
          obtain ⟨hle, hlist⟩ := hr.definedTags_eq
          rcases hplaced with hfound | hdefined
          · cases hfound.symm.trans hnone
          · have hzero := range'_eq_nil_iff.mp (hlist.symm.trans hdefined)
            rw [htag]
            exact Nat.le_antisymm hle (Nat.le_of_sub_eq_zero hzero)
    rw [← hsame]
    exact hx.tag_written hr he

theorem Rewrapped.found_written {id w : FuncId} {g : Function} (hknown : p.Recognizes id w)
    (hbefore : p.funcs[w]? = some g) (hg : o.program.funcs[w]? = some g) :
    ∃ type body is, out.funcSpace[w]? = some (type, .defined body) ∧
      Wire.encodeInstrs is = .ok body.code ∧ ⟨0x10, .call (UInt32.ofNat id)⟩ ∈ is := by
  obtain ⟨⟨_, hfound, b, callee, hkind, hcalls, hcallee, -⟩, -⟩ := hknown
  cases hbefore.symm.trans hfound
  have hlt : id < o.program.funcs.length :=
    (lt_of_getElem? (hx.altered.funcs_kept hcallee))
  obtain ⟨_, origin, hat, hcomes⟩ := hx.altered.funcSpace hr he hg
  simp only [Function.import?, hkind] at hcomes
  cases hcomes with
  | defined hbody =>
    obtain ⟨_, ⟨⟩, hwrites⟩ := hbody
    obtain ⟨is, hencode, hcall⟩ := hwrites.calls hcalls
    rw [hx.funcIndex hr hlt] at hcall
    exact ⟨_, _, is, hat, hencode, hcall⟩

/-- A wrapper that was made is written at its place, as one that catches exceptions of the tag. -/
theorem Rewrapped.made_written {id w : FuncId} {g : Function} {r : Recipe} {defaults : List Instr}
    {seqs : List Seq} {given : Handles} (hid : id < o.program.funcs.length)
    (hg : o.program.funcs[w]? = some g)
    (hc : Crafted tag given o.program.types o.program.locals id g r defaults seqs) :
    ∃ body is, out.funcSpace[w]? = some (UInt32.ofNat g.type, .defined body) ∧
      Wire.encodeInstrs is = .ok body.code ∧
      Wire.Catches (UInt32.ofNat id) (UInt32.ofNat (p.writtenTag tag)) r.params.length is := by
  obtain ⟨_, origin, hat, hcomes⟩ := hx.altered.funcSpace hr he hg
  simp only [Function.import?, hc.kind] at hcomes
  cases hcomes with
  | defined hbody =>
    obtain ⟨_, ⟨⟩, hwrites⟩ := hbody
    obtain ⟨k, is, hk, hencode, hcatches⟩ := hc.catches hwrites
    rw [hx.funcIndex hr hid, hx.tagIndex hr hk] at hcatches
    exact ⟨_, is, hat, hencode, hcatches⟩

theorem Rewrapped.import_written {id : FuncId} {f : Function} (hf : p.funcs[id]? = some f)
    (himported : f.isImported = true) : out.funcSpace[id]? =
      some (UInt32.ofNat f.type, .imported (o.wrapped id).module (o.wrapped id).name) := by
  have hkept := hx.altered.funcs_kept hf
  obtain ⟨entry, hentry⟩ := Option.isSome_iff_exists.mp himported
  obtain ⟨_, origin, hat, hcomes⟩ := hx.altered.funcSpace hr he hkept
  rw [Function.import?_redirect, hentry] at hcomes
  cases hcomes with
  | @imported _ i hi =>
    have hnamed : o.program.importOf? id = some i := by
      simp [importOf?, hkept, Function.import?_redirect, hentry, hi]
    rw [hat, Outcome.wrapped, hnamed]
    rfl

/-- Each entry of the report is right about the module that is written. -/
theorem Rewrapped.describes (htag : o.tag = some tag) {md : Metadata} {adapters : List Adapter}
    {strategy : Strategy} (hflagged : md.flagged adapters ≠ [])
    (ho : p.guardImports (some md) adapters strategy = .ok o)
    (himports : ∀ id ∈ o.flagged, ∃ f, p.funcs[id]? = some f ∧ f.isImported = true) {id : FuncId}
    (hid : id ∈ o.flagged) : (o.wrapped id).Describes p out (p.writtenTag tag) := by
  obtain ⟨f, hf, himported⟩ := himports id hid
  have hat := hx.import_written hr he hf himported
  obtain ⟨w, hw⟩ : ∃ w, (id, w) ∈ o.wrappers := by
    rw [← hx.keys] at hid
    obtain ⟨⟨_, w⟩, hw, rfl⟩ := mem_map.mp hid
    exact ⟨w, hw⟩
  have hlt : id < o.program.funcs.length :=
    (lt_of_getElem? (hx.altered.funcs_kept hf))
  have hwrapper : (o.wrapped id).wrapper = w := by
    simp [Outcome.wrapped, Targets.get?_of_mem (hx.keys ▸ hx.nodup) hw]
  rcases guardImports_wrapper hr.wellFormed hflagged ho hw with ⟨hreused, hknown, g, hbefore, hg⟩ |
    ⟨hnew, hge, f', sig, g, tag', given, r, defaults, seqs, htag', hf', hsig, hsame, hg, htype, hc⟩
  · have hexisting : (o.wrapped id).existing = true := contains_iff_mem.mpr hreused
    refine ⟨⟨_, hat⟩, fun _ => ?_, fun hfalse => ?_⟩
    · rw [hwrapper]
      exact ⟨hknown, hx.found_written hr he hknown hbefore hg⟩
    · cases hexisting.symm.trans hfalse
  · have hexisting : (o.wrapped id).existing = false := by
      simpa [Outcome.wrapped] using hnew
    refine ⟨⟨_, hat⟩, fun htrue => ?_, fun _ => ?_⟩
    · cases hexisting.symm.trans htrue
    · cases htag.symm.trans htag'
      cases hf.symm.trans hf'
      obtain ⟨sig', hsig', -, hparams⟩ := hc.type
      cases hsame.symm.trans hsig'
      obtain ⟨body, is, hwritten, hencode, hcatches⟩ := hx.made_written hr he hlt hg hc
      rw [hparams] at hcatches
      rw [hwrapper]
      exact ⟨hge, _, sig, body, is, hat, Option.bind_eq_some_iff.mpr ⟨f, hf, hsig⟩, htype ▸ hwritten,
        hencode, hcatches⟩

end Rewrapped

end Program

/-- A report with wrapped imports is about the module that was written, which is what is read from its
bytes. Its functions are given by their indices, and wrappers catch exceptions of the imported tag. The
number of the tag is its index just if the tag was imported before or no other tags are defined. -/
theorem transform_describes {data out : Bytes} {c : Config} {report : Report}
    (h : transform data c = .ok (out, report)) (hwrapped : report.wrapped ≠ []) :
    ∃ (p : Program) (m : Wire.Module) (tag : TagId), Program.parse data = .ok p ∧ m.encode = .ok out ∧
      (out.length < 2 ^ 32 → Wire.Module.decode out = .ok m.reread) ∧ report.tag = some tag ∧
      (∀ w ∈ report.wrapped, w.Describes p m.reread (p.writtenTag tag)) ∧
      (∃ type, m.reread.tagSpace[p.writtenTag tag]? = some (type, .imported tagModule tagName)) ∧
      ((∃ type, m.reread.tagSpace[tag]? = some (type, .imported tagModule tagName)) ↔
        p.existingTag = .ok (some tag) ∨ p.definedTags = []) := by
  obtain ⟨p, hp, hresult⟩ := (transform_eq_ok_iff hwrapped).mp h
  obtain ⟨hselected, strategy, o, -, ho, hout, rfl⟩ := Program.transform_eq_some_iff.mp hresult
  obtain ⟨source, hdecode, hsource⟩ := Program.parse_eq_ok_iff.mp hp
  obtain ⟨m, hm, -, hencode⟩ := Program.emit_eq_ok_iff.mp hout
  obtain ⟨q, s, tables, exports, hr⟩ := Program.ofModule_eq_ok hsource
  obtain ⟨tag, handles, new, types, more, htag, hflagged, hhandles, hx⟩ := hr.rewrapped hselected ho
  obtain ⟨bodies, extra, names, he⟩ := Program.toModule_eq_ok_iff.mp hm
  have hwritten := hx.tag_written hr he
  have hplaced := hx.tag_written_iff hr he
  -- what is read differs in the form of its types only, so it has the same spaces
  refine ⟨p, m, tag, hp, hencode, fun hlength => ?_, htag, ?_, hwritten, hplaced⟩
  · have hall : o.program.Emits m (bodies ++ []) extra names := by rwa [append_nil]
    have hsmall := hx.altered.small hr hall hencode hlength
    have hcoded := hx.altered.coded hr (Wire.Module.decode_proper hdecode) hall hsmall.types hsmall.tags
    exact Wire.Module.decode_encode hcoded hencode hlength
  · intro w hw
    obtain ⟨id, hid, rfl⟩ := mem_map.mp hw
    obtain ⟨himported, hfound, hmade⟩ := hx.describes hr he htag hselected ho
      (fun id hid => Program.checkHandles_eq_ok hhandles (hflagged ▸ hid)) hid
    exact ⟨himported, hfound, hmade⟩

/-- The wrapper that is made catches exceptions of the tag with index zero. -/
theorem throwingCaller_described : ∃ out report p m, transform throwingCaller wrapEverything =
    .ok (out, report) ∧ report.wrapped = [⟨"e", "f", 0, 4, false⟩] ∧ Program.parse throwingCaller = .ok p ∧
      Wire.Module.decode out = .ok m ∧ Wrapped.Describes ⟨"e", "f", 0, 4, false⟩ p m 0 := by
  have hrun : ((transform throwingCaller wrapEverything).toOption.any fun r => decide
      (r.2.wrapped = [⟨"e", "f", 0, 4, false⟩] ∧ r.2.tag = some 1 ∧ r.1.length = 193)) = true := by
    decide +kernel
  have hplaced : ((Program.parse throwingCaller).toOption.any fun p =>
      decide (p.writtenTag 1 = 0)) = true := by decide +kernel
  obtain ⟨⟨out, report⟩, hrun, htest⟩ := any_toOption_iff.mp hrun
  obtain ⟨hwrapped, htag, hlength⟩ := of_decide_eq_true htest
  obtain ⟨p, m, tag, hp, -, hdecode, htag', hentries, -⟩ :=
    transform_describes hrun (by rw [hwrapped]; exact cons_ne_nil _ _)
  rw [hp] at hplaced
  cases htag.symm.trans htag'
  have hentry := hentries ⟨"e", "f", 0, 4, false⟩ (by rw [hwrapped]; exact mem_singleton_self _)
  rw [of_decide_eq_true hplaced] at hentry
  exact ⟨out, report, p, _, hrun, hwrapped, hp, hdecode (hlength.trans_lt (by decide)), hentry⟩

/-- The tag that is imported has the index of the module's own tag as its number. -/
theorem throwingCaller_misreports : ∃ out report m, transform throwingCaller wrapEverything =
    .ok (out, report) ∧ Wire.Module.decode out = .ok m ∧ report.tag = some 1 ∧
      m.tagSpace[0]? = some (⟨0, 3⟩, .imported tagModule tagName) ∧
      m.tagSpace[1]? = some (⟨0, 0⟩, .defined ()) := by
  have hrun : ((transform throwingCaller wrapEverything).toOption.any fun r =>
      decide (r.2.tag = some 1) && (Wire.Module.decode r.1).toOption.any fun m =>
        decide (m.imports = [⟨"e", "f", .func 0⟩, ⟨tagModule, tagName, .tag (some ⟨0, 3⟩)⟩] ∧
          m.tags = [⟨0, 0⟩])) = true := by decide +kernel
  obtain ⟨⟨out, report⟩, hrun, htest⟩ := any_toOption_iff.mp hrun
  obtain ⟨htag, htest⟩ := Bool.and_eq_true_iff.mp htest
  obtain ⟨m, hm, htest⟩ := any_toOption_iff.mp htest
  obtain ⟨himports, htags⟩ := of_decide_eq_true htest
  refine ⟨out, report, m, hrun, hm, of_decide_eq_true htag, ?_, ?_⟩
  · rw [Wire.Module.tagSpace, himports, htags]
    rfl
  · rw [Wire.Module.tagSpace, himports, htags]
    rfl

end HostCatch
