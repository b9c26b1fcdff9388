import HostCatch.Proofs.Wire.Primitive
import HostCatch.Wire.Types

namespace HostCatch

open Wire Reader

namespace Wire

variable {code : TypeCode}

/-- A code and the reference it stands for belong together: written they can be read again. -/
def RefCoded (code : TypeCode) (ref : Option RefType) : Prop :=
  ∃ w, refOrCode code ref = code :: w ∧ Spells (refAfter code) w ref

def ExtCoded (code : TypeCode) (ext : Option ExtType) : Prop :=
  ∃ w, typeOrCode code ext = code :: w ∧ Spells (extAfter code) w ext

theorem refCoded_none (h : code.takesHeap = false) : RefCoded code none := by
  refine ⟨[], rfl, ?_⟩
  unfold refAfter
  rw [h]
  exact .done none

theorem refCoded_some (type : RefType) :
    RefCoded (if type.nullable then TypeCode.refNull else TypeCode.ref) (some type) := by
  refine ⟨Leb128.s64 type.heap, rfl, ?_⟩
  have hread : ∀ code : TypeCode, code.takesHeap = true →
      Spells (refAfter code) (Leb128.s64 type.heap)
        (some ⟨code = TypeCode.refNull, type.heap⟩) := by
    intro code hcode
    unfold refAfter
    rw [if_pos hcode]
    exact (Leb128.readS64_spells type.heap).bind_pure
  obtain ⟨nullable, heap⟩ := type
  cases nullable with
  | true => exact hread TypeCode.refNull rfl
  | false => exact hread TypeCode.ref rfl

theorem RefCoded.toExt {ref : Option RefType} (h : RefCoded code ref) :
    ExtCoded code (ref.map (.ref code)) := by
  obtain ⟨w, hw, hread⟩ := h
  refine ⟨w, ?_, hread.bind_pure⟩
  cases ref with
  | none => exact hw
  | some type => exact hw

theorem ExtCoded.spells {ext : Option ExtType} (h : ExtCoded code ext) :
    Spells Reader.extType (typeOrCode code ext) (ext.getD (.plain code)) := by
  obtain ⟨w, hw, hread⟩ := h
  rw [hw]
  exact (Spells.byte code).bind hread.bind_pure

end Wire

namespace Reader

variable {code : TypeCode}

theorem takesHeap_eq_true (h : code.takesHeap = true) :
    code = if code = TypeCode.refNull then TypeCode.refNull else TypeCode.ref := by
  split
  next hnull => exact hnull
  next hnull => simpa [TypeCode.takesHeap, hnull] using h

theorem refAfter_eq_ok : Yields (refAfter code) (RefCoded code) := by
  refine .branch (fun hcode => .skip fun heap => .done ?_) fun hcode => .done ?_
  · have hcoded := refCoded_some ⟨code = TypeCode.refNull, heap⟩
    simp only [decide_eq_true_eq, ← takesHeap_eq_true hcode] at hcoded
    exact hcoded
  · exact refCoded_none (by simpa using hcode)

theorem extAfter_eq_ok : Yields (extAfter code) (ExtCoded code) :=
  refAfter_eq_ok.bind fun _ href => .done href.toExt

theorem extType_eq_ok : Yields extType fun type => Spells extType (Wire.extType type) type := by
  refine .skip fun code => ?_
  have hext : Yields (extAfter code) fun ext =>
      Spells extType (Wire.extType (ext.getD (.plain code))) (ext.getD (.plain code)) := by
    refine refAfter_eq_ok.bind fun ref href => .done ?_
    have hspells := href.toExt.spells
    cases ref with
    | none => exact hspells
    | some type => exact hspells
  exact hext.bind fun _ h => .done h

end Reader

end HostCatch
