import HostCatch.Proofs.Program.Rereading
import HostCatch.Proofs.Program.Skeleton
import HostCatch.Proofs.Program.WellFormed
import HostCatch.Proofs.Wire.Sections
import HostCatch.Program.ToModule

namespace HostCatch

open List Wire

namespace RefType

theorem code?_eq_some {r : RefType} {c : TypeCode} (h : r.code? = some c) :
    0x69 ≤ c ∧ c ≤ 0x74 ∧ r = ⟨true, Int64.ofInt (c.toNat - 0x80)⟩ := by
  obtain ⟨nullable, heap⟩ := r
  unfold code? at h
  split at h
  next hnamed =>
    simp only [HeapType.isNamed, Bool.and_eq_true, decide_eq_true_eq] at hnamed
    obtain ⟨hnull, hlow, hhigh⟩ := hnamed
    have hlow : -23 ≤ heap.toInt := Int64.le_iff_toInt_le.mp hlow
    have hhigh : heap.toInt ≤ -12 := Int64.le_iff_toInt_le.mp hhigh
    have hlt : (heap.toInt + 0x80).toNat < 256 := by omega
    cases h
    simp only [UInt8.le_iff_toNat_le, UInt8.toNat_ofNat_of_lt' hlt, UInt8.reduceToNat]
    refine ⟨by omega, by omega, ?_⟩
    have hback : ((heap.toInt + 0x80).toNat : Int) - 0x80 = heap.toInt := by omega
    rw [hback, Int64.ofInt_toInt]
    rw [show nullable = true from hnull]
  next => cases h

theorem code_of_none {r : RefType} (h : r.code? = none) :
    r.code = if r.nullable then TypeCode.refNull else TypeCode.ref := by
  rw [code, h, Option.getD_none]

/-- No reference is written with the byte that announces an initial value. -/
theorem code_ne (r : RefType) : r.code ≠ 0x40 := by
  cases h : r.code? with
  | some c =>
    obtain ⟨hlow, -, -⟩ := code?_eq_some h
    rw [code, h, Option.getD_some]
    rintro rfl
    exact absurd hlow (by decide)
  | none =>
    rw [code_of_none h]
    split <;> decide

theorem refCoded (r : RefType) : RefCoded r.code (if r.code?.isSome then none else some r) := by
  cases h : r.code? with
  | some c =>
    obtain ⟨hlow, hhigh, -⟩ := code?_eq_some h
    rw [code, h, Option.getD_some]
    refine refCoded_none ?_
    simp only [TypeCode.takesHeap, Bool.or_eq_false_iff, decide_eq_false_iff_not]
    refine ⟨?_, ?_⟩
    · rintro rfl
      exact absurd hlow (by decide)
    · rintro rfl
      exact absurd hlow (by decide)
  | none =>
    rw [code_of_none h]
    exact refCoded_some r

end RefType

namespace ValType

variable {v : ValType} {vs : List ValType}

theorem extCoded (v : ValType) : ExtCoded v.code v.ext? := by
  cases v with
  | ref r =>
    have hcoded := r.refCoded.toExt
    cases h : r.code? with
    | some c => simpa [code, ext?, needsHeap, h] using hcoded
    | none => simpa [code, ext?, needsHeap, toExt, h] using hcoded
  | _ => exact (refCoded_none rfl).toExt

theorem toExt_eq (v : ValType) : v.toExt = v.ext?.getD (.plain v.code) := by
  cases v with
  | ref r =>
    cases h : r.code? with
    | some c => simp [ext?, needsHeap, toExt, code, RefType.code, h]
    | none => simp [ext?, needsHeap, toExt, h]
  | _ => rfl

theorem toExt_of_plain (h : v.needsHeap = false) : v.toExt = .plain v.code := by
  rw [toExt_eq, ext?, h]
  rfl

theorem toExt_code (v : ValType) : v.toExt.code = v.code := by
  cases v with
  | ref r =>
    cases h : r.code? with
    | some c => simp [toExt, code, RefType.code, h, ExtType.code]
    | none => simp [toExt, code, h, ExtType.code]
  | _ => rfl

theorem toExt_spells (v : ValType) : Reader.Spells Reader.extType (extType v.toExt) v.toExt := by
  have hread := v.extCoded.spells
  rw [← toExt_eq] at hread
  have hwritten : typeOrCode v.code v.ext? = extType v.toExt := by
    cases v with
    | ref r =>
      cases h : r.code? with
      | some c => simp [typeOrCode, extType, ext?, needsHeap, toExt, code, RefType.code, h]
      | none => simp [typeOrCode, extType, ext?, needsHeap, toExt, h]
    | _ => rfl
  rwa [hwritten] at hread

/-- The codes of value types: numbers and vectors, and references to named heap types. -/
theorem code_range (hknown : v.IsKnown) (hcode : v.needsHeap = false) :
    0x7B ≤ v.code.toNat ∧ v.code.toNat ≤ 0x7F ∨ 0x69 ≤ v.code.toNat ∧ v.code.toNat ≤ 0x74 := by
  cases v with
  | ref r =>
    obtain ⟨c, hc⟩ := Option.isSome_iff_exists.mp (by simpa [needsHeap] using hcode)
    obtain ⟨hlow, hhigh, -⟩ := RefType.code?_eq_some hc
    rw [code, RefType.code, hc, Option.getD_some]
    exact .inr ⟨UInt8.le_iff_toNat_le.mp hlow, UInt8.le_iff_toNat_le.mp hhigh⟩
  | unknown number => exact absurd rfl (hknown number)
  | _ => decide

theorem ofCode_reference {c : TypeCode} (hlow : 0x69 ≤ c) (hhigh : c ≤ 0x74) :
    ofCode c = .ok (ref ⟨true, Int64.ofInt (c.toNat - 0x80)⟩) := by
  have hne : ∀ d : TypeCode, 0x74 < d → c ≠ d := by
    rintro d hd rfl
    exact absurd hhigh (UInt8.not_le.mpr hd)
  rw [ofCode, if_neg (hne _ (by decide)), if_neg (hne _ (by decide)), if_neg (hne _ (by decide)),
    if_neg (hne _ (by decide)), if_neg (hne _ (by decide)), if_pos ⟨hlow, hhigh⟩]

theorem ofExt_toExt (h : v.IsKnown) : ofExt v.toExt = .ok v := by
  cases v with
  | unknown number => exact absurd rfl (h number)
  | ref r =>
    cases hr : r.code? with
    | none => simp [toExt, hr, ofExt]
    | some c =>
      obtain ⟨hlow, hhigh, hback⟩ := RefType.code?_eq_some hr
      rw [toExt_of_plain (by simp [needsHeap, hr]), ofExt, code, RefType.code, hr, Option.getD_some,
        ofCode_reference hlow hhigh, ← hback]
  | _ => rfl

theorem toExts_eq (vs : List ValType) :
    (if toExts vs = [] then (vs.map code).map ExtType.plain else toExts vs) = vs.map toExt := by
  by_cases hany : vs.any needsHeap = true
  · have hne : vs.map toExt ≠ [] := by
      rintro hnil
      rw [map_eq_nil_iff.mp hnil] at hany
      cases hany
    have hexts : toExts vs = vs.map toExt := if_pos hany
    rw [hexts, if_neg hne]
  · have hexts : toExts vs = [] := if_neg hany
    rw [if_pos hexts, map_map]
    refine map_congr_left fun v hv => (toExt_of_plain ?_).symm
    simpa using any_eq_false.mp (Bool.not_eq_true _ ▸ hany) v hv

theorem list_toExts_eq (vs : List ValType) :
    (if toExts vs = [] then Wire.list (fun code => [code]) (vs.map code)
      else Wire.list extType (toExts vs)) = Wire.list extType (vs.map toExt) := by
  have hplain : Wire.list (fun code => [code]) (vs.map code) =
      Wire.list extType ((vs.map code).map ExtType.plain) := by
    simp [Wire.list, flatMap_map, extType]
  rw [hplain, ← toExts_eq]
  split <;> rfl

theorem map_toExt_code (vs : List ValType) : (vs.map toExt).map ExtType.code = vs.map code := by
  rw [map_map]
  exact map_congr_left fun v _ => toExt_code v

theorem list_toExt_spells (h : vs.length < 2 ^ 32) :
    Reader.Spells (Reader.list Reader.extType) (Wire.list extType (vs.map toExt)) (vs.map toExt) :=
  Reader.list_spells (by rwa [length_map]) (forall_mem_map.mpr fun v _ => v.toExt_spells)

theorem ofWire_toExt (h : ∀ v ∈ vs, v.IsKnown) : ofWire (vs.map code) (vs.map toExt) = .ok vs := by
  have hall : (vs.map toExt).mapM ofExt = .ok vs := by
    rw [mapM_eq_ok_iff, forall₂_map_left_iff, forall₂_same]
    exact fun v hv => ofExt_toExt (h v hv)
  unfold ofWire
  split
  next hnil =>
    rw [map_eq_nil_iff.mp hnil]
    rfl
  next => exact hall

end ValType

namespace Signature

theorem toWire_full (s : Signature) : s.toWire.full =
    ⟨s.params.map ValType.code, s.results.map ValType.code, s.params.map ValType.toExt,
      s.results.map ValType.toExt⟩ :=
  congrArg₂ (FuncType.mk _ _) (ValType.toExts_eq s.params) (ValType.toExts_eq s.results)

theorem funcType_toWire (s : Signature) : funcType s.toWire =
    Wire.list extType (s.params.map ValType.toExt) ++
      Wire.list extType (s.results.map ValType.toExt) :=
  congrArg₂ (· ++ ·) (ValType.list_toExts_eq s.params) (ValType.list_toExts_eq s.results)

theorem toWire_spells {s : Signature} (hparams : s.params.length < 2 ^ 32)
    (hresults : s.results.length < 2 ^ 32) :
    Reader.Spells Reader.funcType (funcType s.toWire) s.toWire.full := by
  rw [funcType_toWire, toWire_full, ← ValType.map_toExt_code, ← ValType.map_toExt_code]
  exact (ValType.list_toExt_spells hparams).bind (ValType.list_toExt_spells hresults).bind_pure

/-- Each value type takes a byte, and so do the numbers of parameters and results. -/
theorem length_lt_toWire (s : Signature) :
    s.params.length + s.results.length + 1 < (funcType s.toWire).length := by
  have hlist (vs : List ValType) :
      vs.length < (Wire.list extType (vs.map ValType.toExt)).length := by
    have hle : (vs.map ValType.toExt).length ≤ ((vs.map ValType.toExt).flatMap extType).length :=
      Reader.length_le_flatMap fun ext _ => by cases ext <;> simp [extType, refType]
    have hsize : 0 < (Wire.size (vs.map ValType.toExt).length).length :=
      length_pos_iff.mpr (by simp [Wire.size])
    rw [length_map] at hle
    rw [Wire.list, length_append]
    omega
  have hparams := hlist s.params
  have hresults := hlist s.results
  rw [funcType_toWire, length_append]
  omega

theorem toWire_coded (s : Signature) : s.toWire.Coded := by
  intro hlength
  have hcounts := s.length_lt_toWire
  exact toWire_spells (by omega) (by omega)

/-- A signature whose value types are known. -/
def IsKnown (s : Signature) : Prop :=
  ∀ v ∈ s.params ++ s.results, v.IsKnown

theorem signatureOf_full {s : Signature} (h : s.IsKnown) (i : Nat) :
    Program.signatureOf i s.toWire.full = .ok s := by
  have hparams := ValType.ofWire_toExt fun v hv => h v (mem_append_left s.results hv)
  have hresults := ValType.ofWire_toExt fun v hv => h v (mem_append_right s.params hv)
  rw [toWire_full, Program.signatureOf, hparams, hresults]
  rfl


end Signature

namespace ValType

theorem ofCode_known {c : TypeCode} {v : ValType} (h : ofCode c = .ok v) : v.IsKnown := by
  rintro number rfl
  obtain ⟨-, rfl⟩ := ofCode_eq_ok h
  cases h

theorem ofExt_known {ext : ExtType} {v : ValType} (h : ofExt ext = .ok v) : v.IsKnown := by
  cases ext with
  | plain code => exact ofCode_known h
  | ref code type =>
    cases h
    exact fun _ => ValType.noConfusion

theorem ofWire_known {codes : List TypeCode} {exts : List ExtType} {vs : List ValType}
    (h : ofWire codes exts = .ok vs) : ∀ v ∈ vs, v.IsKnown := by
  intro v hv
  unfold ofWire at h
  split at h
  next =>
    obtain ⟨_, -, hread⟩ := forall₂_mem_right (mapM_eq_ok_iff.mp h) hv
    exact ofCode_known hread
  next =>
    obtain ⟨_, -, hread⟩ := forall₂_mem_right (mapM_eq_ok_iff.mp h) hv
    exact ofExt_known hread

end ValType

namespace Program

theorem signatureOf_known {i : Nat} {t : FuncType} {s : Signature} (h : signatureOf i t = .ok s) :
    s.IsKnown := by
  obtain ⟨params, hparams, h⟩ := of_bind h
  obtain ⟨results, hresults, h⟩ := of_bind h
  cases h
  intro v hv
  rcases mem_append.mp hv with hv | hv
  · exact ValType.ofWire_known (wrapping_eq_ok_iff.mp hparams) v hv
  · exact ValType.ofWire_known (wrapping_eq_ok_iff.mp hresults) v hv

theorem elemOf_tableToWire (t : Table) : elemOf (tableToWire t) = .ok t.elem := by
  unfold elemOf tableToWire
  cases h : t.elem.code? with
  | none => rfl
  | some c =>
    obtain ⟨hlow, hhigh, hback⟩ := RefType.code?_eq_some h
    simp only [Option.isSome_some, ↓reduceIte, RefType.code, h, Option.getD_some,
      ValType.ofCode_reference hlow hhigh, ← hback]
    rfl

theorem tableToWire_proper {t : Table} (hlimits : t.limits.Proper)
    (hinit : t.init ≠ [] → Reader.Spells Reader.constExpr t.init t.init) :
    (tableToWire t).Proper := by
  exact ⟨t.elem.refCoded, fun _ => t.elem.code_ne, hlimits, hinit⟩

end Program

section Runs

variable {types : List ValType}

theorem flatMap_runs (types : List ValType) :
    (runs types).flatMap (fun r => List.replicate r.2 r.1) = types := by
  induction types with
  | nil => rfl
  | cons t ts ih =>
    unfold runs
    split
    next u n rest hruns =>
      rw [hruns, flatMap_cons] at ih
      split
      next heq =>
        rw [flatMap_cons, replicate_succ, cons_append, ih, heq]
      next => simp [ih]
    next hruns =>
      rw [hruns] at ih
      simp [← ih]

theorem mem_of_mem_runs {r : ValType × Nat} (h : r ∈ runs types) : r.1 ∈ types := by
  induction types generalizing r with
  | nil => cases h
  | cons t ts ih =>
    unfold runs at h
    split at h
    next u n rest hruns =>
      split at h
      next heq =>
        rcases mem_cons.mp h with rfl | h
        · exact heq ▸ mem_cons_self
        · exact mem_cons_of_mem _ (ih (hruns ▸ mem_cons_of_mem _ h))
      next =>
        rcases mem_cons.mp h with rfl | h
        · exact mem_cons_self
        · exact mem_cons_of_mem _ (ih (hruns ▸ h))
    next =>
      obtain rfl := mem_singleton.mp h
      exact mem_cons_self

theorem count_le_of_mem_runs {r : ValType × Nat} (h : r ∈ runs types) : r.2 ≤ types.length := by
  have hle : (List.replicate r.2 r.1).length ≤
      ((runs types).flatMap fun r => List.replicate r.2 r.1).length :=
    (sublist_flatten_of_mem (mem_map_of_mem (f := fun r => List.replicate r.2 r.1) h)).length_le
  rwa [flatMap_runs, length_replicate] at hle

namespace Program

theorem localEntry_coded (r : ValType × Nat) : (localEntry r).Coded :=
  r.1.extCoded

/-- The types of variables are read as they are written, as long as their number can be written. -/
theorem declaredTypes_runs {scope : Scope} (hknown : ∀ v ∈ types, v.IsKnown)
    (hlength : types.length < 2 ^ 32) :
    declaredTypes scope ((runs types).map localEntry) = .ok types := by
  refine bind_eq_ok_iff.mpr ⟨(runs types).map fun r => List.replicate r.2 r.1, ?_, ?_⟩
  · rw [mapM_eq_ok_iff, forall₂_map_left_iff, forall₂_map_right_iff, forall₂_same]
    intro r hr
    have hcount := count_le_of_mem_runs hr
    have hsize : (localEntry r).count.toNat = r.2 := Reader.toNat_ofNat_size (by omega)
    refine bind_eq_ok_iff.mpr ⟨r.1, Scope.restate_ok ?_, ?_⟩
    · have hext := ValType.ofExt_toExt (hknown _ (mem_of_mem_runs hr))
      rw [ValType.toExt_eq] at hext
      split
      next hsome => rwa [show r.1.ext? = _ from hsome] at hext
      next hnone => rwa [show r.1.ext? = _ from hnone] at hext
    · rw [pure_eq_ok_iff, hsize]
  · rw [pure_eq_ok_iff]
    exact flatMap_runs types

end Program

end Runs

end HostCatch
