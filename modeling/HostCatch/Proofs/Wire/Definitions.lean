import HostCatch.Proofs.Wire.Sections
import HostCatch.Proofs.Wire.Shrinking

namespace HostCatch

open List

namespace Wire

/-- A function type whose value types are all given in full, and that can be read again. -/
structure FuncType.Whole (t : FuncType) : Prop where
  params : t.params = t.extParams.map ExtType.code
  results : t.results = t.extResults.map ExtType.code
  coded : ∀ type ∈ t.extParams ++ t.extResults, type.isRef = type.code.takesHeap
  spells : Reader.Spells Reader.funcType (funcType t) t

theorem FuncType.Whole.full {t : FuncType} (h : t.Whole) : t.full = t := by
  obtain ⟨hparams, hresults, -, -⟩ := h
  obtain ⟨params, results, extParams, extResults⟩ := t
  dsimp only at hparams hresults
  subst hparams hresults
  cases extParams <;> cases extResults <;> rfl

theorem funcType_eq {t : FuncType} (hparams : t.params = t.extParams.map ExtType.code)
    (hresults : t.results = t.extResults.map ExtType.code) :
    funcType t = list extType t.extParams ++ list extType t.extResults := by
  obtain ⟨params, results, extParams, extResults⟩ := t
  dsimp only at hparams hresults
  subst hparams hresults
  cases extParams <;> cases extResults <;> rfl

/-- The function type that a final subtype without parents is: it is written as just this. -/
def SubType.bareFunc? (t : SubType) : Option FuncType :=
  if t.final = true ∧ t.parents = [] then t.comp.funcType? else none

/-- A composite type goes with the first byte of what is written for it. -/
structure Composite.Formed (comp : Composite) (form : UInt8) : Prop where
  whole : ∀ type ∈ comp.funcType?, type.Whole
  told : form = Form.func ∧ comp.funcType?.isSome = true ∨
    comp.funcType? = none ∧ form ∈ [Form.struct, Form.array]

/-- A subtype goes with the first byte of what is written for it. -/
structure SubType.Formed (t : SubType) (form : UInt8) : Prop where
  whole : ∀ type ∈ t.comp.funcType?, type.Whole
  told : form = Form.func ∧ t.bareFunc?.isSome = true ∨
    t.bareFunc? = none ∧ form ∈ [Form.sub, Form.subFinal, Form.struct, Form.array]

theorem Composite.Formed.bare {comp : Composite} {form : UInt8} (h : comp.Formed form) :
    SubType.Formed ⟨true, [], comp⟩ form where
  whole := h.whole
  told := by
    have hbare : SubType.bareFunc? ⟨true, [], comp⟩ = comp.funcType? := if_pos ⟨rfl, rfl⟩
    rw [hbare]
    refine h.told.imp_right fun hother => ⟨hother.1, ?_⟩
    exact mem_cons_of_mem _ (mem_cons_of_mem _ hother.2)

end Wire

namespace Reader

open Wire

variable {α : Type} {form : UInt8} {c c' : Cursor} {comp : Composite}

/-- What a reader took between two cursors can be written as `w`: that is no longer, and it is read
as `a`. -/
structure Renewed (p : Reader α) (w : Bytes) (a : α) (c c' : Cursor) : Prop where
  spells : Spells p w a
  length : w.length + c'.rest.length ≤ c.rest.length

theorem list_spells_of_eq_ok {p : Reader α} {write : α → Bytes}
    (hp : Yields p fun a => Spells p (write a) a) :
    Yields (list p) fun as => Spells (list p) (Wire.list write as) as :=
  fun _ _ _ h => list_spells (list_yields hp h).1 (list_yields hp h).2

theorem extType_coded : Yields extType fun type => type.isRef = type.code.takesHeap := by
  refine .skip fun (code : TypeCode) => ?_
  have href : Yields (refAfter code) fun ref => ref.isSome = code.takesHeap :=
    .branch (fun hcode => .skip fun _ => .done hcode.symm)
      fun hcode => .done (Bool.eq_false_iff.mpr hcode).symm
  have hext : Yields (extAfter code) fun ext =>
      (ext.getD (.plain code)).isRef = (ext.getD (.plain code)).code.takesHeap :=
    href.bind fun ref h => .done (by cases ref <;> exact h)
  exact hext.bind fun _ h => .done h

theorem funcType_eq_ok : Yields funcType FuncType.Whole := by
  have hlist : Yields (list extType) fun types => Spells (list extType) (Wire.list Wire.extType types)
      types ∧ ∀ type ∈ types, type.isRef = type.code.takesHeap :=
    fun _ _ _ h => ⟨list_spells_of_eq_ok extType_eq_ok h, (list_yields extType_coded h).2⟩
  refine hlist.bind fun params hparams => hlist.bind fun results hresults => .done ?_
  refine ⟨rfl, rfl, forall_mem_append.mpr ⟨hparams.2, hresults.2⟩, ?_⟩
  rw [funcType_eq rfl rfl]
  exact hparams.1.bind hresults.1.bind_pure

theorem funcType_shrinks : Shrinks funcType Wire.funcType := by
  refine (list_shrinks extType_shrinks).bind fun params => ?_
  refine (list_shrinks extType_shrinks).bind fun results => .done ?_
  rw [funcType_eq rfl rfl]
  simp

theorem storage_eq_ok : Yields storage fun s => Spells storage (Wire.storage s) s := by
  refine .skip fun code => .branch (fun hpacked => .done ?_) fun hplain => ?_
  · refine (Spells.byte code).bind_nil ?_
    rw [if_pos hpacked]
    exact .done _
  · refine refAfter_eq_ok.bind fun ref href => ?_
    obtain ⟨w, hw, hread⟩ := href
    cases ref with
    | none =>
      have hspells : Spells storage (refOrCode code none) (.val code) := by
        rw [hw]
        refine (Spells.byte code).bind ?_
        rw [if_neg hplain]
        exact hread.bind_nil (.done _)
      exact .done hspells
    | some type =>
      have hspells : Spells storage (refOrCode code (some type)) (.ref type) := by
        rw [hw]
        refine (Spells.byte code).bind ?_
        rw [if_neg hplain]
        exact hread.bind_nil (.done _)
      exact .done hspells

theorem storage_shrinks : Shrinks storage Wire.storage := by
  refine byte_shrinks.bind fun code => .branch (fun _ => .done rfl) fun _ => ?_
  refine (refAfter_shrinks code).bind fun ref => ?_
  cases ref with
  | none => exact .done rfl
  | some type => exact .done (by simp [Wire.storage, refOrCode, refType])

theorem field_eq_ok : Yields field fun f => Spells field (Wire.field f) f := by
  refine storage_eq_ok.bind fun storage hread => .skip fun mutable => .done (hread.bind ?_)
  have hflag : ∀ b : Bool, decide ((if b then 1 else 0 : UInt8) ≠ 0) = b := by decide
  have hbyte := (Spells.byte (if decide (mutable ≠ 0) then 1 else 0)).bind_pure
    (f := fun b => (⟨storage, b ≠ 0⟩ : Field))
  rw [hflag] at hbyte
  exact hbyte

theorem field_shrinks : Shrinks field Wire.field :=
  storage_shrinks.bind fun storage => byte_shrinks.bind fun mutable => .done
    (by simp [Wire.field, flag])

theorem compositeAfter_eq_ok {otherwise : ReadFault}
    (h : compositeAfter form otherwise c = .ok comp c') :
    comp.Formed form ∧ ∃ w, composite comp = .ok (form :: w) ∧
      ∀ e, Renewed (compositeAfter form e) w comp c c' := by
  unfold compositeAfter at h
  split at h
  next hform =>
    obtain ⟨type, d, htype, h⟩ := of_bind h
    cases h
    have hwhole := funcType_eq_ok htype
    refine ⟨⟨by rintro _ ⟨⟩; exact hwhole, .inl ⟨hform, rfl⟩⟩, Wire.funcType type,
      by rw [hform]; rfl, fun e => ⟨?_, funcType_shrinks _ _ _ htype⟩⟩
    rw [compositeAfter, if_pos hform]
    exact hwhole.spells.bind_pure
  next hfunc =>
  split at h
  next hform =>
    obtain ⟨fields, d, hfields, h⟩ := of_bind h
    cases h
    refine ⟨⟨nofun, .inr ⟨rfl, by simp [hform]⟩⟩, Wire.list Wire.field fields,
      by rw [hform]; rfl, fun e => ⟨?_, list_shrinks field_shrinks _ _ _ hfields⟩⟩
    rw [compositeAfter, if_neg hfunc, if_pos hform]
    exact (list_spells_of_eq_ok field_eq_ok hfields).bind_pure
  next hstruct =>
  split at h
  next hform =>
    obtain ⟨element, d, helement, h⟩ := of_bind h
    cases h
    refine ⟨⟨nofun, .inr ⟨rfl, by simp [hform]⟩⟩, Wire.field element, by rw [hform]; rfl,
      fun e => ⟨?_, field_shrinks _ _ _ helement⟩⟩
    rw [compositeAfter, if_neg hfunc, if_neg hstruct, if_pos hform]
    exact (field_eq_ok helement).bind_pure
  next => exact absurd h throw_ne_ok

theorem Renewed.bare {w : Bytes} (hformed : comp.Formed form)
    (h : ∀ e, Renewed (compositeAfter form e) w comp c c') :
    Renewed (subTypeAfter form) w ⟨true, [], comp⟩ c c' := by
  refine ⟨?_, (h (.subtypeForm form)).length⟩
  have hform : (form = Form.sub || form = Form.subFinal) = false := by
    rcases hformed.told with ⟨rfl, -⟩ | ⟨-, hform⟩
    · rfl
    · simp only [mem_cons, not_mem_nil, or_false] at hform
      rcases hform with rfl | rfl <;> rfl
  rw [subTypeAfter, hform]
  exact (h (.subtypeForm form)).spells.bind_pure

/-- A type definition that was read can be written and read again. -/
theorem subTypeAfter_eq_ok {t : SubType} (h : subTypeAfter form c = .ok t c') :
    ∃ first w, Wire.subType t = .ok (first :: w) ∧ t.Formed first ∧
      Renewed (subTypeAfter first) w t c c' := by
  unfold subTypeAfter at h
  split at h
  next hform =>
    obtain ⟨parents, d, hparents, h⟩ := of_bind h
    obtain ⟨inner, e, hinner, h⟩ := of_bind h
    obtain ⟨comp, f, hcomp, h⟩ := of_bind h
    cases h
    obtain ⟨hformed, w, hw, hread⟩ := compositeAfter_eq_ok hcomp
    have hlength := list_shrinks u32_shrinks _ _ _ hparents
    have hinner := byte_length hinner
    have hrest := (hread (.compositeForm inner)).length
    by_cases hbare : parents = [] ∧ form = Form.subFinal
    · obtain ⟨rfl, rfl⟩ := hbare
      refine ⟨inner, w, by simp [Wire.subType, hw], hformed.bare, ?_, by omega⟩
      exact (Renewed.bare hformed hread).spells
    · have hsub : (if form = Form.subFinal then Form.subFinal else Form.sub) = form := by
        split
        next hfinal => exact hfinal.symm
        next hfinal =>
          have hsub : form = Form.sub := by simpa [hfinal] using hform
          exact hsub.symm
      have hnone : SubType.bareFunc? ⟨form = Form.subFinal, parents, comp⟩ = none := by
        refine if_neg fun hboth => hbare ⟨hboth.2, by simpa using hboth.1⟩
      refine ⟨form, Wire.list Leb128.u32 parents ++ inner :: w, ?_, ⟨hformed.whole, .inr ⟨hnone, ?_⟩⟩,
        ?_, ?_⟩
      · simp [Wire.subType, hw, hsub, hbare]
      · rw [← hsub]
        split <;> simp
      · rw [subTypeAfter, if_pos hform]
        exact (list_spells_of_eq_ok (fun _ _ _ _ => u32_spells _) hparents).bind
          (Spells.bind (v := [inner]) (.byte inner) (hread _).spells.bind_pure)
      · rw [length_append, length_cons]
        omega
  next =>
    obtain ⟨comp, f, hcomp, h⟩ := of_bind h
    cases h
    obtain ⟨hformed, w, hw, hread⟩ := compositeAfter_eq_ok hcomp
    exact ⟨form, w, by simp [Wire.subType, hw], hformed.bare, Renewed.bare hformed hread⟩

theorem times_renewed {p : Reader α} {f : α → α} {R : α → Bytes → Prop}
    (hp : ∀ {c c' : Cursor} {a : α}, p c = .ok a c' → ∃ w, R a w ∧ Renewed p w (f a) c c') {n : Nat}
    {as : List α} (h : times p n c = .ok as c') :
    ∃ ws, Forall₂ R as ws ∧ Renewed (times p n) ws.flatten (as.map f) c c' := by
  induction n generalizing c as with
  | zero =>
    cases h
    exact ⟨[], .nil, .done [], by simp⟩
  | succ n ih =>
    obtain ⟨a, d, ha, h⟩ := of_bind h
    obtain ⟨as, e, has, h⟩ := of_bind h
    cases h
    obtain ⟨w, hw, hfirst⟩ := hp ha
    obtain ⟨ws, hws, hrest⟩ := ih has
    refine ⟨w :: ws, .cons hw hws, hfirst.spells.bind hrest.spells.bind_pure, ?_⟩
    have hfirst := hfirst.length
    have hrest := hrest.length
    rw [flatten_cons, length_append]
    omega

end Reader

namespace Wire

theorem subTypes_eq_ok {types : List SubType} {ws : List Bytes}
    (h : Forall₂ (fun t w => subType t = .ok w) types ws) : subTypes types = .ok ws.flatten := by
  induction h with
  | nil => rfl
  | cons hfirst _ ih =>
    rw [subTypes, hfirst, ok_bind, ih, ok_bind]
    rfl

theorem typeDefs_eq_ok {defs : List TypeDef} {ws : List Bytes}
    (h : Forall₂ (fun t w => typeDef t = .ok w) defs ws) : typeDefs defs = .ok ws.flatten := by
  induction h with
  | nil => rfl
  | cons hfirst _ ih =>
    rw [typeDefs, hfirst, ok_bind, ih, ok_bind]
    rfl

namespace TypeDef

/-- The definition that is read from what is written for one. -/
def bare : TypeDef → TypeDef
  | sub (some t) =>
    match t.bareFunc? with
    | some type => func (some type)
    | none => sub (some t)
  | t => t

/-- A plain function type. -/
def isPlain : TypeDef → Bool
  | func _ => true
  | _ => false

end TypeDef

theorem SubType.funcType?_of_bareFunc? {t : SubType} {type : FuncType}
    (h : t.bareFunc? = some type) : t = ⟨true, [], .func (some type)⟩ := by
  obtain ⟨final, parents, comp⟩ := t
  unfold SubType.bareFunc? at h
  split at h
  next hbare =>
    obtain ⟨rfl, rfl⟩ : final = true ∧ parents = [] := hbare
    cases comp with
    | func found => cases h; rfl
    | struct _ => cases h
    | array _ => cases h
    | other => cases h
  next => cases h

@[simp] theorem TypeDef.bare_funcTypes (t : TypeDef) : t.bare.funcTypes = t.funcTypes := by
  cases t with
  | sub t =>
    cases t with
    | none => rfl
    | some t =>
      unfold TypeDef.bare
      dsimp only
      split
      next type htype =>
        rw [SubType.funcType?_of_bareFunc? htype]
        rfl
      next => rfl
  | func _ => rfl
  | group _ => rfl
  | other => rfl

/-- The bytes that are written for a definition, and how they start. -/
structure TypeDef.Written (t : TypeDef) (w : Bytes) : Prop where
  bytes : typeDef t = .ok w
  whole : ∀ type ∈ t.funcTypes, type.Whole
  told : (∃ type, t.bare = .func (some type) ∧ w = Form.func :: funcType type) ∨
    t.bare.isPlain = false ∧ ∃ first rest, w = first :: rest ∧ first ≠ Form.func ∧
      Form.isComposite first = true

end Wire

namespace Reader

open Wire

variable {c c' : Cursor}

theorem subType_eq_ok {t : SubType} (h : subType c = .ok t c') :
    ∃ w, (Wire.subType t = .ok w ∧ ∀ type ∈ t.comp.funcType?, type.Whole) ∧
      Renewed subType w t c c' := by
  obtain ⟨form, d, hform, h⟩ := of_bind h
  obtain ⟨first, w, hw, hformed, hread⟩ := subTypeAfter_eq_ok h
  have hform := byte_length hform
  have hlength := hread.length
  refine ⟨first :: w, ⟨hw, hformed.whole⟩, (Spells.byte first).bind hread.spells, ?_⟩
  rw [length_cons]
  omega

theorem typeDef_spells_plain {type : FuncType} (hwhole : type.Whole) :
    Spells typeDef (Form.func :: Wire.funcType type) (.func (some type)) := by
  refine (Spells.byte Form.func).bind ?_
  rw [if_pos rfl]
  exact hwhole.spells.bind_pure

/-- A group is written type by type behind its number of types. -/
theorem group_eq_ok {types : List SubType} (h : list subType c = .ok types c') :
    ∃ w, (TypeDef.group (some types)).Written (Form.group :: w) ∧
      Renewed (list subType) w types c c' := by
  obtain ⟨n, d, hn, h⟩ := of_bind h
  have hcount := (times_eq_ok h).1
  obtain ⟨ws, hws, hread⟩ := times_renewed (f := id) subType_eq_ok h
  have hn' := u32_length hn (Nat.le_of_eq hcount)
  have hlength := hread.length
  refine ⟨size types.length ++ ws.flatten, ⟨?_, ?_, .inr ⟨rfl, ?_⟩⟩, ?_, ?_⟩
  · simp [Wire.typeDef, subTypes_eq_ok (hws.imp fun _ _ h => h.1)]
  · intro type htype
    obtain ⟨t, ht, htype⟩ := mem_filterMap.mp htype
    obtain ⟨w, -, hw⟩ := forall₂_mem_left hws ht
    exact hw.2 type htype
  · exact ⟨Form.group, _, rfl, by decide, by decide⟩
  · refine (u32_spells _).bind ?_
    rw [toNat_ofNat_size (hcount ▸ n.toNat_lt), hcount]
    have hspells := hread.spells
    rwa [map_id] at hspells
  · rw [length_append]
    omega

/-- A definition by itself is read again as it was, or as a plain function type if nothing else is said
of the type. -/
theorem sub_eq_ok {form : UInt8} {type : SubType} (h : subTypeAfter form c = .ok type c') :
    ∃ first w, (TypeDef.sub (some type)).Written (first :: w) ∧
      Spells typeDef (first :: w) (TypeDef.sub (some type)).bare ∧
      w.length + c'.rest.length ≤ c.rest.length := by
  obtain ⟨first, w, hw, hformed, hread⟩ := subTypeAfter_eq_ok h
  have hwhole : ∀ found ∈ (TypeDef.sub (some type)).funcTypes, found.Whole := fun found hfound =>
    hformed.whole found (Option.mem_toList.mp hfound)
  refine ⟨first, w, ?_⟩
  cases hbare : type.bareFunc? with
  | some found =>
    have hdef : (TypeDef.sub (some type)).bare = .func (some found) := by
      simp only [TypeDef.bare, hbare]
    have htype := SubType.funcType?_of_bareFunc? hbare
    have hbytes : Wire.subType type = .ok (Form.func :: Wire.funcType found) := by
      rw [htype]
      rfl
    obtain ⟨rfl, rfl⟩ := List.cons.inj (Except.ok.inj (hbytes.symm.trans hw))
    refine ⟨⟨hw, hwhole, .inl ⟨found, hdef, rfl⟩⟩, ?_, hread.length⟩
    rw [hdef]
    refine typeDef_spells_plain (hformed.whole found ?_)
    rw [htype]
    rfl
  | none =>
    have hdef : (TypeDef.sub (some type)).bare = .sub (some type) := by
      simp only [TypeDef.bare, hbare]
    obtain ⟨hplain, hgroup, hcomposite⟩ :
        first ≠ Form.func ∧ first ≠ Form.group ∧ Form.isComposite first = true := by
      rcases hformed.told with ⟨-, hsome⟩ | ⟨-, hfirst⟩
      · rw [hbare] at hsome
        cases hsome
      · simp only [mem_cons, not_mem_nil, or_false] at hfirst
        rcases hfirst with rfl | rfl | rfl | rfl <;> decide
    rw [hdef]
    refine ⟨⟨hw, hwhole, .inr ⟨by rw [hdef]; rfl, first, w, rfl, hplain, hcomposite⟩⟩, ?_, hread.length⟩
    refine (Spells.byte first).bind ?_
    rw [if_neg hplain, if_neg hgroup, if_pos hcomposite]
    exact hread.spells.bind_pure

/-- A definition that was read is written, and what is written is read as the same definition, but for
a final function type without parents, which is read as a plain one. -/
theorem typeDef_eq_ok {t : TypeDef} (h : typeDef c = .ok t c') :
    ∃ w, t.Written w ∧ Renewed typeDef w t.bare c c' := by
  obtain ⟨form, d, hform, h⟩ := of_bind h
  have hform := byte_length hform
  split at h
  next =>
    obtain ⟨type, e, htype, h⟩ := of_bind h
    cases h
    have hwhole := funcType_eq_ok htype
    have hlength := funcType_shrinks _ _ _ htype
    refine ⟨Form.func :: Wire.funcType type, ⟨rfl, ?_, .inl ⟨type, rfl, rfl⟩⟩,
      typeDef_spells_plain hwhole, ?_⟩
    · simpa [TypeDef.funcTypes] using hwhole
    · rw [length_cons]
      omega
  next =>
  split at h
  next =>
    obtain ⟨types, e, htypes, h⟩ := of_bind h
    cases h
    obtain ⟨w, hw, hread⟩ := group_eq_ok htypes
    have hlength := hread.length
    refine ⟨Form.group :: w, hw, (Spells.byte Form.group).bind ?_, ?_⟩
    · rw [if_neg (by decide), if_pos rfl]
      exact hread.spells.bind_pure
    · rw [length_cons]
      omega
  next =>
  split at h
  next =>
    obtain ⟨type, e, htype, h⟩ := of_bind h
    cases h
    obtain ⟨first, w, hw, hspells, hlength⟩ := sub_eq_ok htype
    refine ⟨first :: w, hw, hspells, ?_⟩
    rw [length_cons]
    omega
  next => exact absurd h throw_ne_ok

end Reader

end HostCatch
