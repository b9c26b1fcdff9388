import HostCatch.Proofs.Wire.Definitions

namespace HostCatch

open List

namespace Wire

/-- The definitions that are read from what is written for some: none are kept when what is left are
plain function types. -/
def rereadDefs (defs : List TypeDef) : List TypeDef :=
  if (defs.map TypeDef.bare).all TypeDef.isPlain then [] else defs.map TypeDef.bare

/-- A function type none of whose value types is a reference with its heap type after it. -/
def FuncType.Plain (t : FuncType) : Prop :=
  ∀ code ∈ t.params ++ t.results, code ≠ TypeCode.refNull ∧ code ≠ TypeCode.ref

theorem TypeDef.Written.of_isPlain {t : TypeDef} {w : Bytes} (h : t.Written w)
    (hplain : t.bare.isPlain = true) :
    ∃ type : FuncType, type.Whole ∧ t.funcTypes = [type] ∧ w = Form.func :: funcType type := by
  rcases h.told with ⟨type, htype, rfl⟩ | ⟨hother, -⟩
  · have hfuncs : t.funcTypes = [type] := by
      rw [← TypeDef.bare_funcTypes, htype]
      rfl
    exact ⟨type, h.whole type (by simp [hfuncs]), hfuncs, rfl⟩
  · rw [hother] at hplain
    cases hplain

theorem written_plain {defs : List TypeDef} {ws : List Bytes} (h : Forall₂ TypeDef.Written defs ws)
    (hplain : (defs.map TypeDef.bare).all TypeDef.isPlain = true) :
    (defs.flatMap TypeDef.funcTypes).length = defs.length ∧
      ws.flatten = (defs.flatMap TypeDef.funcTypes).flatMap fun t => Form.func :: funcType t := by
  induction h with
  | nil => exact ⟨rfl, rfl⟩
  | cons hfirst _ ih =>
    rw [map_cons, all_cons, Bool.and_eq_true] at hplain
    obtain ⟨type, -, hfuncs, rfl⟩ := hfirst.of_isPlain hplain.1
    obtain ⟨hlength, hbytes⟩ := ih hplain.2
    rw [flatMap_cons, hfuncs, flatten_cons, hbytes]
    exact ⟨by simp [hlength], rfl⟩

end Wire

namespace Reader

open Wire

variable {defs : List TypeDef} {ws : List Bytes}

theorem anyComposite_written (h : Forall₂ TypeDef.Written defs ws) (rest : Bytes) (pos : Nat) :
    ∃ d, anyComposite defs.length ⟨ws.flatten ++ rest, pos⟩ =
      .ok (!(defs.map TypeDef.bare).all TypeDef.isPlain) d := by
  induction h generalizing pos with
  | nil => exact ⟨_, rfl⟩
  | cons hfirst _ ih =>
    rename_i t w defs ws _
    rw [flatten_cons, append_assoc, map_cons, all_cons]
    by_cases hplain : t.bare.isPlain = true
    · obtain ⟨type, hwhole, -, rfl⟩ := hfirst.of_isPlain hplain
      obtain ⟨d, hd⟩ := ih (pos + 1 + (Wire.funcType type).length)
      refine ⟨d, ?_⟩
      rw [hplain, Bool.true_and]
      exact anyComposite_succ_iff.mpr (.inl ⟨type, _, hwhole.spells _ _, hd⟩)
    · rcases hfirst.told with ⟨type, htype, -⟩ | ⟨hother, first, tail, rfl, hfunc, hcomposite⟩
      · rw [htype] at hplain
        exact absurd rfl hplain
      · refine ⟨⟨tail ++ (ws.flatten ++ rest), pos + 1⟩, ?_⟩
        rw [hother, Bool.false_and]
        exact anyComposite_succ_iff.mpr (.inr ⟨rfl, first, rfl, hcomposite⟩)

/-- The payload of a type section that holds definitions is read as these, once written. -/
theorem typeSection_written (h : Forall₂ TypeDef.Written defs ws)
    (hspells : Spells (times typeDef defs.length) ws.flatten (defs.map TypeDef.bare))
    (hlength : defs.length < 2 ^ 32) {m : Module} (hm : m.typeDefs = []) :
    Spells (typeSection m) (size defs.length ++ ws.flatten)
      { m with types := defs.flatMap TypeDef.funcTypes, typeDefs := rereadDefs defs } := by
  by_cases hplain : (defs.map TypeDef.bare).all TypeDef.isPlain = true
  · obtain ⟨hcount, hbytes⟩ := written_plain h hplain
    have hwhole : ∀ t ∈ defs.flatMap TypeDef.funcTypes, t.Whole := by
      intro t ht
      obtain ⟨d, hd, ht⟩ := mem_flatMap.mp ht
      obtain ⟨w, -, hw⟩ := forall₂_mem_left h hd
      exact hw.whole t ht
    have hfull : (defs.flatMap TypeDef.funcTypes).map FuncType.full =
        defs.flatMap TypeDef.funcTypes :=
      (map_congr_left fun t ht => (hwhole t ht).full).trans (map_id _)
    have hplainSpells : ∀ t ∈ defs.flatMap TypeDef.funcTypes,
        Spells funcType (Wire.funcType t) t.full := by
      intro t ht
      rw [(hwhole t ht).full]
      exact (hwhole t ht).spells
    have hread := typeSection_spells hplainSpells (hcount ▸ hlength) m
    rw [hfull, hcount, ← hbytes, hm] at hread
    rwa [rereadDefs, if_pos hplain]
  · have hcomposite := Bool.eq_false_iff.mpr hplain
    rw [rereadDefs, if_neg hplain]
    refine (u32_spells _).bind ?_
    rw [toNat_ofNat_size hlength]
    intro rest pos
    obtain ⟨d, hd⟩ := anyComposite_written h rest pos
    rw [hcomposite] at hd
    refine bind_eq_ok_iff.mpr ⟨_, _, rfl, ?_⟩
    refine bind_eq_ok_iff.mpr ⟨true, d, hd, ?_⟩
    refine bind_eq_ok_iff.mpr ⟨(), _, rfl, ?_⟩
    have hread := hspells.bind_pure (f := fun typeDefs =>
      { m with typeDefs, types := typeDefs.flatMap TypeDef.funcTypes })
    rw [flatMap_map] at hread
    simp only [TypeDef.bare_funcTypes] at hread
    exact hread rest pos

theorem plainType_eq_ok : Yields plainType FuncType.Whole :=
  .skip fun _ => .branch (fun _ => funcType_eq_ok) fun _ => .failed

theorem plainType_shrinks : Shrinks plainType fun t => Form.func :: Wire.funcType t :=
  byte_shrinks.bind fun _ => .branch (fun _ => funcType_shrinks) fun _ => .failed

theorem anyComposite_typeDef {n : Nat} {c d f : Cursor} {found : Bool} {first : TypeDef}
    (h : anyComposite (n + 1) c = .ok found d) (hfirst : typeDef c = .ok first f) :
    anyComposite n f = .ok found d ∨ first.isPlain = false ∧ ∃ form, byte c = .ok form d := by
  obtain ⟨t, e, ht, h⟩ | ⟨-, form, hform, hcomposite⟩ := anyComposite_succ_iff.mp h
  · cases (typeDef_of_plainType ht).symm.trans hfirst
    exact .inl h
  · refine .inr ⟨?_, form, hform⟩
    rw [typeDef, bind_of_eq_ok hform, if_neg] at hfirst
    exact Yields.branch (Q := fun t => TypeDef.isPlain t = false) (fun _ => .skip fun _ => .done rfl)
      (fun _ => .branch (fun _ => .skip fun _ => .done rfl) fun _ => .failed) hfirst
    rintro rfl
    cases hcomposite

theorem composite_of_anyComposite {n : Nat} {c d c' : Cursor} (h : anyComposite n c = .ok true d)
    (hdefs : times typeDef n c = .ok defs c') : defs.all TypeDef.isPlain = false := by
  induction n generalizing c defs with
  | zero => cases h
  | succ n ih =>
    obtain ⟨first, f, hfirst, hdefs⟩ := of_bind hdefs
    obtain ⟨rest, g, hrest, hdefs⟩ := of_bind hdefs
    cases hdefs
    rw [all_cons, Bool.and_eq_false_iff]
    obtain h | ⟨hother, -⟩ := anyComposite_typeDef h hfirst
    · exact .inr (ih h hrest)
    · exact .inl hother

end Reader

namespace Wire

open Reader

theorem plainType_eq {t : FuncType} (h : t.Whole) (hplain : t.Plain) :
    plainType t = Form.func :: funcType t := by
  have hcodes {types : List ExtType} (hmem : ∀ type ∈ types, type ∈ t.extParams ++ t.extResults)
      (hkept : ∀ code ∈ types.map ExtType.code, code ∈ t.params ++ t.results) :
      list (fun code => [code]) (types.map ExtType.code) = list extType types := by
    have heach : ∀ type ∈ types, [type.code] = extType type := by
      intro type htype
      have hnone := hplain type.code (hkept _ (mem_map_of_mem htype))
      have href := h.coded type (hmem type htype)
      rw [TypeCode.takesHeap, decide_eq_false hnone.1, decide_eq_false hnone.2] at href
      cases type with
      | plain code => rfl
      | ref code type => cases href
    rw [list, list, length_map, flatMap_map, flatMap_congr heach]
  rw [plainType, funcType_eq h.params h.results, h.params, h.results,
    hcodes (fun _ => mem_append_left _) (fun _ hcode => h.params ▸ mem_append_left _ hcode),
    hcodes (fun _ => mem_append_right _) (fun _ hcode => h.results ▸ mem_append_right _ hcode)]

/-- What a type section leaves: what is written for it can be read again, up to definitions that are
written as plain function types. -/
structure TypesRead (types : List FuncType) (typeDefs : List TypeDef) : Prop where
  whole : ∀ t ∈ types, t.Whole
  composite : typeDefs ≠ [] → typeDefs.all TypeDef.isPlain = false
  fits : typeDefs = [] → (list (fun t => Form.func :: funcType t) types).length < 2 ^ 32
  written : (typeDefs ≠ [] ∨ ∀ t ∈ types, t.Plain) →
    ∃ w, typeSection { types, typeDefs } = .ok w ∧ w.length < 2 ^ 32 ∧
      Spells (Reader.typeSection {}) w { types, typeDefs := rereadDefs typeDefs }

theorem typesRead_nil : TypesRead [] [] where
  whole := nofun
  composite h := absurd rfl h
  fits _ := list_nil_length _
  written _ := by
    have hread : Spells (Reader.typeSection {}) (list plainType []) {} :=
      typeSection_spells (fun (t : FuncType) (ht : t ∈ []) => absurd ht not_mem_nil) (by decide) {}
    exact ⟨list plainType [], rfl, list_nil_length plainType, hread⟩

/-- Plain function types that were read are read again. -/
theorem typesRead_plain {n : Nat} {c c' : Cursor} {types : List FuncType}
    (h : times Reader.plainType n c = .ok types c') (hn : n < 2 ^ 32)
    (hlength : (size n).length + c.rest.length < 2 ^ 32) : TypesRead types [] := by
  obtain ⟨rfl, hall⟩ := times_eq_ok h
  have hwhole : ∀ t ∈ types, t.Whole := by
    intro t ht
    obtain ⟨d, d', hread⟩ := hall t ht
    exact plainType_eq_ok hread
  have hentries := times_shrinks plainType_shrinks _ _ _ _ h
  have hfits : (list (fun t => Form.func :: funcType t) types).length < 2 ^ 32 := by
    rw [list, length_append]
    omega
  refine ⟨hwhole, fun hne => absurd rfl hne, fun _ => hfits, fun hrefs => ?_⟩
  have hplain : ∀ t ∈ types, t.Plain := hrefs.resolve_left fun hne => hne rfl
  have hbytes : list plainType types = list (fun t => Form.func :: funcType t) types := by
    rw [list, list, flatMap_congr fun t ht => plainType_eq (hwhole t ht) (hplain t ht)]
  have hfull : types.map FuncType.full = types :=
    (map_congr_left fun t ht => (hwhole t ht).full).trans (map_id _)
  have hread := typeSection_spells (fun t ht => by
    rw [(hwhole t ht).full]
    exact (hwhole t ht).spells) hn {}
  rw [hfull] at hread
  refine ⟨list plainType types, rfl, hbytes ▸ hfits, ?_⟩
  rw [hbytes]
  exact hread

theorem typesRead_defs {n : Nat} {c d c' : Cursor} {defs : List TypeDef}
    (hcomposite : anyComposite n c = .ok true d) (h : times Reader.typeDef n c = .ok defs c')
    (hn : n < 2 ^ 32) (hlength : (size n).length + c.rest.length < 2 ^ 32) :
    TypesRead (defs.flatMap TypeDef.funcTypes) defs := by
  have hall := composite_of_anyComposite hcomposite h
  obtain ⟨ws, hws, hread⟩ := times_renewed typeDef_eq_ok h
  obtain ⟨rfl, -⟩ := times_eq_ok h
  have hne : defs ≠ [] := by
    rintro rfl
    cases hall
  refine ⟨fun t ht => ?_, fun _ => hall, fun hnone => absurd hnone hne, fun _ => ?_⟩
  · obtain ⟨t', ht', ht⟩ := mem_flatMap.mp ht
    obtain ⟨w, -, hw⟩ := forall₂_mem_left hws ht'
    exact hw.whole t ht
  · refine ⟨size defs.length ++ ws.flatten, ?_, ?_, typeSection_written hws hread.spells hn rfl⟩
    · rw [typeSection, if_neg hne, typeDefs_eq_ok (hws.imp fun _ _ h => h.bytes)]
      rfl
    · have := hread.length
      rw [length_append]
      omega

theorem typeSection_typesRead {m m' : Module} {data : Bytes} {c : Cursor} (hm : m.typeDefs = [])
    (hlength : data.length < 2 ^ 32) (h : Reader.typeSection m (.start data) = .ok m' c) :
    TypesRead m'.types m'.typeDefs := by
  obtain ⟨n, d, hn, h⟩ := typeSection_cases h
  have hcount := u32_length hn (Nat.le_refl _)
  have hfits : (size n.toNat).length + d.rest.length < 2 ^ 32 := Nat.lt_of_le_of_lt hcount hlength
  obtain ⟨types, htypes, rfl⟩ | ⟨defs, e, hcomposite, hdefs, rfl⟩ := h
  · rw [show ({ m with types } : Module).typeDefs = [] from hm]
    exact typesRead_plain htypes n.toNat_lt hfits
  · exact typesRead_defs hcomposite hdefs n.toNat_lt hfits

end Wire

end HostCatch
