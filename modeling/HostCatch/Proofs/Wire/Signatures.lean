import HostCatch.Proofs.Wire.Recoding
import Mathlib.Algebra.Order.BigOperators.Group.List

namespace HostCatch

open List

namespace Wire

variable {α β : Type} {t : FuncType} {w : Bytes}

theorem flatMap_length_le {f g : α → List β} {as : List α}
    (h : ∀ a ∈ as, (f a).length ≤ (g a).length) :
    (as.flatMap f).length ≤ (as.flatMap g).length := by
  rw [length_flatMap, length_flatMap]
  exact sum_le_sum h

theorem flatMap_length_lt {f g : α → List β} {as : List α}
    (hle : ∀ a ∈ as, (f a).length ≤ (g a).length) (hlt : ∃ a ∈ as, (f a).length < (g a).length) :
    (as.flatMap f).length < (as.flatMap g).length := by
  rw [length_flatMap, length_flatMap]
  exact sum_lt_sum _ _ hle hlt

/-- A function type after its form byte, in full. -/
def fullType (t : FuncType) : Bytes :=
  Form.func :: funcType t

theorem extType_length_pos (type : ExtType) : 1 ≤ (extType type).length := by
  cases type with
  | plain code => exact Nat.le_refl 1
  | ref code type => exact Nat.le_add_left 1 _

theorem extType_length_ref {type : ExtType} (h : type.isRef = true) : 1 < (extType type).length := by
  cases type with
  | plain code => cases h
  | ref code type =>
    have hheap : 0 < (Leb128.s64 type.heap).length := by
      unfold Leb128.s64 Leb128.signed
      split <;> exact Nat.succ_pos _
    exact Nat.succ_lt_succ hheap

theorem plainType_length (h : t.Whole) :
    (plainType t).length + ((t.extParams ++ t.extResults).flatMap extType).length =
      (fullType t).length + ((t.extParams ++ t.extResults).flatMap fun type => [type.code]).length := by
  rw [plainType, fullType, funcType_eq h.params h.results, h.params, h.results]
  simp only [list, length_cons, length_append, length_map, flatMap_append, flatMap_map]
  omega

theorem plainType_length_le (h : t.Whole) : (plainType t).length ≤ (fullType t).length := by
  have hcodes : ((t.extParams ++ t.extResults).flatMap fun type => [type.code]).length ≤
      ((t.extParams ++ t.extResults).flatMap extType).length :=
    flatMap_length_le fun type _ => extType_length_pos type
  have := plainType_length h
  omega

theorem plainType_length_lt (h : t.Whole) (hrefs : ¬ t.Plain) :
    (plainType t).length < (fullType t).length := by
  obtain ⟨type, htype, href⟩ : ∃ type ∈ t.extParams ++ t.extResults, type.isRef = true := by
    by_contra hnone
    refine hrefs fun code hcode => ?_
    rw [h.params, h.results, ← map_append] at hcode
    obtain ⟨type, htype, rfl⟩ := mem_map.mp hcode
    have hplain : type.code.takesHeap = false := by
      rw [← h.coded type htype, ← Bool.not_eq_true]
      exact fun href => hnone ⟨type, htype, href⟩
    simpa [TypeCode.takesHeap] using hplain
  have hcodes : ((t.extParams ++ t.extResults).flatMap fun type => [type.code]).length <
      ((t.extParams ++ t.extResults).flatMap extType).length :=
    flatMap_length_lt (fun type _ => extType_length_pos type) ⟨type, htype, extType_length_ref href⟩
  have := plainType_length h
  omega

theorem composite_length {comp : Composite} (h : composite comp = .ok w) :
    (comp.funcType?.toList.flatMap fullType).length ≤ w.length := by
  cases comp with
  | func type =>
    cases type with
    | none => cases h
    | some type =>
      cases h
      simp [Composite.funcType?, fullType]
  | struct _ | array _ | other => exact Nat.zero_le _

theorem subType_length {t : SubType} (h : subType t = .ok w) :
    (t.comp.funcType?.toList.flatMap fullType).length ≤ w.length := by
  obtain ⟨v, hv, h⟩ := HostCatch.of_bind h
  refine Nat.le_trans (composite_length hv) ?_
  split at h
  next =>
    cases h
    exact Nat.le_refl _
  next =>
    cases h
    rw [length_cons, length_append]
    omega

theorem subTypes_length {types : List SubType} (h : subTypes types = .ok w) :
    ((types.filterMap (·.comp.funcType?)).flatMap fullType).length ≤ w.length := by
  induction types generalizing w with
  | nil => exact Nat.zero_le _
  | cons t types ih =>
    obtain ⟨first, hfirst, h⟩ := HostCatch.of_bind h
    obtain ⟨rest, hrest, h⟩ := HostCatch.of_bind h
    cases h
    have hsplit : (t :: types).filterMap (·.comp.funcType?) =
        t.comp.funcType?.toList ++ types.filterMap (·.comp.funcType?) := by
      cases htype : t.comp.funcType? <;> simp [htype]
    have hfirst := subType_length hfirst
    have hrest := ih hrest
    rw [hsplit, flatMap_append, length_append, length_append]
    omega

theorem typeDef_length {t : TypeDef} (h : typeDef t = .ok w) :
    (t.funcTypes.flatMap fullType).length ≤ w.length := by
  cases t with
  | func type =>
    cases type with
    | none => cases h
    | some type =>
      cases h
      simp [TypeDef.funcTypes, fullType]
  | sub type =>
    cases type with
    | none => cases h
    | some type => exact subType_length h
  | group types =>
    cases types with
    | none => cases h
    | some types =>
      obtain ⟨v, hv, h⟩ := HostCatch.of_bind h
      cases h
      have hlength := subTypes_length hv
      rw [length_cons, length_append]
      exact Nat.le_trans hlength (by omega)
  | other => exact Nat.zero_le _

theorem written_length {defs : List TypeDef} {ws : List Bytes}
    (h : Forall₂ TypeDef.Written defs ws) :
    ((defs.flatMap TypeDef.funcTypes).flatMap fullType).length ≤ ws.flatten.length := by
  induction h with
  | nil => exact Nat.zero_le _
  | cons hfirst _ ih =>
    have hfirst := typeDef_length hfirst.bytes
    rw [flatMap_cons, flatMap_append, flatten_cons, length_append, length_append]
    omega

end Wire

namespace Reader

open Wire

variable {m m' : Module} {c : Cursor}

/-- However a type section is read, the function types in it take their bytes in full. -/
theorem typeSection_length {n : Nat} {w : Bytes}
    (h : typeSection m (.start (size n ++ w)) = .ok m' c) :
    (m'.types.flatMap fullType).length ≤ w.length := by
  obtain ⟨count, d, hcount, h⟩ := typeSection_cases h
  cases (u32_spells (UInt32.ofNat n) w 0).symm.trans hcount
  obtain ⟨types, htypes, rfl⟩ | ⟨defs, e, -, hdefs, rfl⟩ := h
  · have hlength := times_shrinks plainType_shrinks _ _ _ _ htypes
    exact Nat.le_trans (Nat.le_add_right _ _) hlength
  · obtain ⟨ws, hws, hread⟩ := times_renewed typeDef_eq_ok hdefs
    exact Nat.le_trans (written_length hws) (Nat.le_trans (Nat.le_add_right _ _) hread.length)

theorem payload_keeps_types {last : Nat} {s : SectionId} {c' : Cursor}
    (hlast : SectionId.types.rank ≤ last) (horder : s = .custom ∨ last < s.rank)
    (h : payload m s c = .ok m' c') :
    SectionId.types.rank ≤ (if s = .custom then last else s.rank) ∧ m'.types = m.types := by
  have hs : s ≠ .types := by
    rintro rfl
    have := horder.resolve_left (by decide)
    omega
  refine ⟨?_, (payload_types hs h).1⟩
  split
  next => exact hlast
  next hcustom => exact Nat.le_trans hlast (Nat.le_of_lt (horder.resolve_left hcustom))

theorem sections_types {bound : Nat} {c' : Cursor}
    (h : sections bound SectionId.types.rank m c = .ok m' c') : m'.types = m.types := by
  obtain ⟨_, -, htypes⟩ := sections_induction
    (motive := fun last (m' : Module) => SectionId.types.rank ≤ last ∧ m'.types = m.types)
    (fun horder _ hread hm =>
      have hkept := payload_keeps_types hm.1 horder hread
      ⟨hkept.1, hkept.2.trans hm.2⟩) h ⟨Nat.le_refl _, rfl⟩
  exact htypes

end Reader

namespace Wire.Module

open Reader

variable {data : Bytes} {m : Module}

/-- Behind a type section that was written with codes alone stand other function types, if any can be
read at all. -/
theorem types_lost {types : List FuncType} {behind : Bytes} {t : FuncType} {m' : Module}
    (hwhole : ∀ t ∈ types, t.Whole) (hfits : (list fullType types).length < 2 ^ 32)
    (ht : t ∈ types) (hrefs : ¬ t.Plain)
    (h : Module.decode (u32le magic ++ (u32le version ++
      (framed .types (list plainType types) ++ behind))) = .ok m') : m'.types ≠ types := by
  have hle : ∀ t ∈ types, (plainType t).length ≤ (fullType t).length :=
    fun t ht => plainType_length_le (hwhole t ht)
  have hsize : (list plainType types).length < 2 ^ 32 := by
    have hentries := flatMap_length_le hle
    rw [list, length_append] at hfits ⊢
    omega
  obtain ⟨c, h⟩ := Reader.run_eq_ok h
  rw [module_header] at h
  obtain ⟨bound, hbound⟩ : ∃ n, (framed .types (list plainType types) ++ behind).length = n + 1 :=
    ⟨_, rfl⟩
  rw [hbound, sections_framed hsize (.inr (by decide))] at h
  obtain ⟨found, d, hfound, h⟩ := Reader.of_bind h
  obtain ⟨e, hfound⟩ := inside_within_eq_ok hfound
  have hshort : (found.types.flatMap fullType).length ≤ (types.flatMap plainType).length :=
    typeSection_length hfound
  have hlong : (types.flatMap plainType).length < (types.flatMap fullType).length :=
    flatMap_length_lt hle ⟨t, ht, plainType_length_lt (hwhole t ht) hrefs⟩
  rw [if_neg (by decide)] at h
  rw [sections_types h]
  intro heq
  rw [heq] at hshort
  omega

/-- Writing a module that was read and reading it again gives the same function types exactly when
there are definitions beside them, or no heap types in them. -/
theorem types_kept_iff (h : Module.decode data = .ok m) :
    (∃ w m', m.encode = .ok w ∧ Module.decode w = .ok m' ∧ m'.types = m.types) ↔
      (m.typeDefs ≠ [] ∨ ∀ t ∈ m.types, t.Plain) := by
  constructor
  · rintro ⟨w, m', hw, hread, htypes⟩
    by_contra hlost
    rw [not_or, not_not] at hlost
    obtain ⟨hdefs, hlost⟩ := hlost
    obtain ⟨t, ht, hrefs⟩ : ∃ t ∈ m.types, ¬ t.Plain := by
      simpa using hlost
    obtain ⟨part, hpart, rfl⟩ := Module.encode_eq_ok_iff.mp hw
    have htypes' := decode_typesRead h
    rw [Module.typePart, if_neg fun hnone => ne_nil_of_mem ht hnone.2, typeSection, if_pos hdefs]
      at hpart
    cases hpart
    exact types_lost htypes'.whole (htypes'.fits hdefs) ht hrefs hread htypes
  · intro hrefs
    obtain ⟨w, hw, hread⟩ := decode_again h hrefs
    exact ⟨w, _, hw, hread, rfl⟩

/-- One function type, from a nullable reference to functions to nothing. -/
def oneRef : Bytes :=
  [0x00, 0x61, 0x73, 0x6D, 0x01, 0x00, 0x00, 0x00,
    0x01, 0x06, 0x01, 0x60, 0x01, 0x63, 0x70, 0x00]

def oneRefModule : Module :=
  { types := [⟨[0x63], [], [.ref 0x63 ⟨true, -16⟩], []⟩] }

theorem oneRef_not_kept : Module.decode oneRef = .ok oneRefModule ∧
    ¬ ∃ w m', oneRefModule.encode = .ok w ∧ Module.decode w = .ok m' ∧
      m'.types = oneRefModule.types := by
  have hread : Module.decode oneRef = .ok oneRefModule := by decide +kernel
  refine ⟨hread, fun hkept => ?_⟩
  rcases (types_kept_iff hread).mp hkept with hdefs | hplain
  · exact hdefs rfl
  · have hcode := hplain _ mem_cons_self 0x63 (by decide)
    exact hcode.1 rfl

/-- What is written for it leaves out the heap type, and cannot be read. -/
theorem oneRef_unreadable : Module.decode oneRef = .ok oneRefModule ∧
    oneRefModule.encode = .ok [0x00, 0x61, 0x73, 0x6D, 0x01, 0x00, 0x00, 0x00,
      0x01, 0x05, 0x01, 0x60, 0x01, 0x63, 0x00] ∧
    Module.decode [0x00, 0x61, 0x73, 0x6D, 0x01, 0x00, 0x00, 0x00,
      0x01, 0x05, 0x01, 0x60, 0x01, 0x63, 0x00] = .error (.inSection "type" .endOfInput) := by
  exact ⟨by decide +kernel, by cbv, by decide +kernel⟩

end Wire.Module

end HostCatch
