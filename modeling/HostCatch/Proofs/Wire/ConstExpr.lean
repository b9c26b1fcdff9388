import HostCatch.Proofs.Wire.Entities
import HostCatch.Proofs.Wire.Instr

namespace HostCatch

open List Wire Reader Leb128

namespace Reader

theorem rawGroups_of_groups {more : Nat} {c c' : Cursor} {w : Bytes}
    (h : groups more c = .ok w c') : Spells rawGroups w w := by
  have hshape : ∃ init last, w = init ++ [last] ∧ (∀ b ∈ init, 0x80 ≤ b) ∧ ¬ 0x80 ≤ last := by
    induction more generalizing c c' w with
    | zero =>
      obtain ⟨b, d, -, h⟩ := of_bind h
      split at h
      next hb =>
        cases h
        exact ⟨[], b, rfl, by simp, UInt8.not_le.mpr hb⟩
      next => exact absurd h throw_ne_ok
    | succ more ih =>
      obtain ⟨b, d, -, h⟩ := of_bind h
      split at h
      next hb =>
        cases h
        exact ⟨[], b, rfl, by simp, UInt8.not_le.mpr hb⟩
      next hb =>
        obtain ⟨bs, e, hbs, h⟩ := of_bind h
        cases h
        obtain ⟨init, last, rfl, hinit, hlast⟩ := ih hbs
        exact ⟨b :: init, last, rfl, forall_mem_cons.mpr ⟨UInt8.not_lt.mp hb, hinit⟩, hlast⟩
  obtain ⟨init, last, rfl, hinit, hlast⟩ := hshape
  exact rawGroups_spells hinit hlast

theorem rawGroups_u32 (v : UInt32) : Spells rawGroups (Leb128.u32 v) (Leb128.u32 v) :=
  rawGroups_of_groups (unsigned_spells (width 32) (Nat.lt_of_lt_of_le v.toNat_lt (by decide)) [] 0)

theorem rawGroups_s64 (v : Int64) : Spells rawGroups (s64 v) (s64 v) := by
  have hlow := v.le_toInt
  have hhigh := v.toInt_lt
  exact rawGroups_of_groups (signed_spells (width 64) (by norm_num [width]; omega)
    (by norm_num [width]; omega) [] 0)

theorem rawGroups_s32 (v : Int32) : Spells rawGroups (s32 v) (s32 v) := by
  have hlow := v.le_toInt
  have hhigh := v.toInt_lt
  exact rawGroups_of_groups (signed_spells (width 32) (by norm_num [width]; omega)
    (by norm_num [width]; omega) [] 0)

end Reader

namespace Wire

variable {i : Instr} {layout : Layout} {w : Bytes}

/-- The opcodes of plain constants, of global variables and of references. -/
def constantOpcodes : List UInt8 := [0x41, 0x42, 0x43, 0x44, 0x23, 0xD0, 0xD2]

/-- The second opcodes of new structures and arrays and of conversions between references. -/
def constantGcOpcodes : List UInt32 :=
  [0x00, 0x01, 0x06, 0x07, 0x08, 0x09, 0x0A, 0x1A, 0x1B, 0x1C]

/-- An instruction that a constant expression may hold before its `end`. -/
inductive Instr.IsConstant : Instr → Prop
  | plain {op : UInt8} {imm : Imm} : op ∈ constantOpcodes → IsConstant ⟨op, imm⟩
  | operator {op : UInt8} {imm : Imm} : Layout.ofOpcode? op = some .none → op ≠ 0x0B →
      IsConstant ⟨op, imm⟩
  | gc {imm : GcImm} : imm.sub ∈ constantGcOpcodes → IsConstant ⟨0xFB, .gc imm⟩
  | vector {bytes : Bytes} : bytes.length = 16 →
      IsConstant ⟨0xFD, .simd { sub := 0x0C, bytes }⟩

theorem Instr.IsConstant.ne_end (h : i.IsConstant) : i.op ≠ 0x0B := by
  cases h with
  | plain h =>
    rintro rfl
    revert h
    decide
  | operator _ h => exact h
  | gc | vector => simp

theorem instr_of_layout (hop : Layout.ofOpcode? i.op = some layout) (hw : Wire.instr i = .ok w) :
    ∃ v, Wire.imm layout i.imm = .ok v ∧ w = i.op :: v := by
  unfold Wire.instr at hw
  rw [hop] at hw
  obtain ⟨v, hv, rfl⟩ := map_eq_ok_iff.mp hw
  exact ⟨v, hv, rfl⟩

theorem imm_rawGroups (h : layout ∈ [Layout.i32, .i64, .globalVar, .refNull, .refFunc]) {i : Imm}
    {v : Bytes} (hv : Wire.imm layout i = .ok v) : Spells rawGroups v v := by
  simp only [mem_cons, not_mem_nil, or_false] at h
  rcases h with rfl | rfl | rfl | rfl | rfl <;> cases i <;> cases hv
  · exact rawGroups_s32 _
  · exact rawGroups_s64 _
  · exact rawGroups_u32 _
  · exact rawGroups_s64 _
  · exact rawGroups_u32 _

/-- How many operands a constant instruction on references has is told alike by both tables. -/
theorem constantGc_layouts : ∀ sub ∈ constantGcOpcodes,
    GcLayout.ofOpcode? sub = some .none ∧ constGcOperands sub = 0 ∨
    GcLayout.ofOpcode? sub = some .type ∧ constGcOperands sub = 1 ∨
    GcLayout.ofOpcode? sub ∈ [some .typeSize, some .typeData, some .typeElem] ∧
      constGcOperands sub = 2 := by
  simp [constantGcOpcodes, GcLayout.ofOpcode?, constGcOperands]

theorem gcImm_constImm {g : GcImm} (h : g.sub ∈ constantGcOpcodes) :
    Spells (constImm 0xFB) (Wire.gcImm g) (Wire.gcImm g) := by
  have hoperands : ∃ operands : List UInt32, operands.length = constGcOperands g.sub ∧
      Wire.gcImm g = Leb128.u32 g.sub ++ operands.flatMap Leb128.u32 := by
    rcases constantGc_layouts g.sub h with ⟨hlayout, hcount⟩ | ⟨hlayout, hcount⟩ | ⟨hlayout, hcount⟩
    · exact ⟨[], hcount.symm, by simp [Wire.gcImm, hlayout]⟩
    · exact ⟨[g.type], hcount.symm, by simp [Wire.gcImm, hlayout]⟩
    · simp only [mem_cons, not_mem_nil, or_false] at hlayout
      rcases hlayout with hlayout | hlayout | hlayout
      · exact ⟨[g.type, g.size], hcount.symm, by simp [Wire.gcImm, hlayout]⟩
      · exact ⟨[g.type, g.data], hcount.symm, by simp [Wire.gcImm, hlayout]⟩
      · exact ⟨[g.type, g.elem], hcount.symm, by simp [Wire.gcImm, hlayout]⟩
  obtain ⟨operands, hlength, hwritten⟩ := hoperands
  have hread : Spells (times rawGroups (operands.map Leb128.u32).length)
      ((operands.map Leb128.u32).flatMap id) (operands.map Leb128.u32) :=
    Spells.times (forall_mem_map.mpr fun operand _ => rawGroups_u32 operand)
  rw [length_map, hlength, flatMap_id] at hread
  rw [hwritten, flatMap_def]
  exact (u32_spells g.sub).bind hread.bind_pure

/-- The operands of a constant instruction can be skipped as they are written. -/
theorem constImm_spells (h : i.IsConstant) (hw : Wire.instr i = .ok w) :
    ∃ v, w = i.op :: v ∧ Spells (constImm i.op) v v := by
  have hgroups {op : UInt8} {imm : Imm} {layout : Layout} (hop : Layout.ofOpcode? op = some layout)
      (hlayout : layout ∈ [Layout.i32, .i64, .globalVar, .refNull, .refFunc])
      (hconst : constImm op = rawGroups) (hw : Wire.instr ⟨op, imm⟩ = .ok w) :
      ∃ v, w = op :: v ∧ Spells (constImm op) v v := by
    obtain ⟨v, hv, rfl⟩ := instr_of_layout hop hw
    exact ⟨v, rfl, hconst ▸ imm_rawGroups hlayout hv⟩
  cases h with
  | @plain op imm hop =>
    simp only [constantOpcodes, mem_cons, not_mem_nil, or_false] at hop
    rcases hop with rfl | rfl | rfl | rfl | rfl | rfl | rfl
    · exact hgroups rfl (by decide) rfl hw
    · exact hgroups rfl (by decide) rfl hw
    · obtain ⟨v, hv, rfl⟩ := instr_of_layout rfl hw
      cases imm <;> cases hv
      exact ⟨_, rfl, Spells.bytes (u32le _)⟩
    · obtain ⟨v, hv, rfl⟩ := instr_of_layout rfl hw
      cases imm <;> cases hv
      exact ⟨_, rfl, Spells.bytes (u64le _)⟩
    · exact hgroups rfl (by decide) rfl hw
    · exact hgroups rfl (by decide) rfl hw
    · exact hgroups rfl (by decide) rfl hw
  | @operator op imm hlayout hend =>
    obtain ⟨v, hv, rfl⟩ := instr_of_layout hlayout hw
    cases hv
    have htable : ∀ op' ∈ [0x41, 0x42, 0x23, 0xD0, 0xD2, 0x43, 0x44, 0xFD, 0xFB],
        Layout.ofOpcode? op' ≠ some .none := by simp [Layout.ofOpcode?]
    have hother : op ∉ [0x41, 0x42, 0x23, 0xD0, 0xD2, 0x43, 0x44, 0xFD, 0xFB] :=
      fun hop => htable op hop hlayout
    refine ⟨[], rfl, ?_⟩
    have hconst : constImm op = pure [] := by
      unfold constImm
      simp_all
    rw [hconst]
    exact .done _
  | gc hsub =>
    obtain ⟨v, hv, rfl⟩ := instr_of_layout rfl hw
    cases hv
    exact ⟨_, rfl, gcImm_constImm hsub⟩
  | @vector bytes hlength =>
    obtain ⟨v, hv, rfl⟩ := instr_of_layout rfl hw
    cases hv
    refine ⟨_, rfl, ?_⟩
    have hwritten : Wire.simdImm { sub := 0x0C, bytes } = Leb128.u32 0x0C ++ bytes := by
      simp [Wire.simdImm]
    rw [hwritten]
    have hread := Spells.bytes bytes
    rw [hlength] at hread
    exact (u32_spells 0x0C).bind hread.bind_pure

/-- A constant expression is found as it is written. -/
theorem constExpr_spells {init : List Instr} (h : ∀ i ∈ init, i.IsConstant)
    (hw : encodeInstrs (init ++ [⟨0x0B, .none⟩]) = .ok w) : Spells constExpr w w := by
  have hwithin : ∀ bound, w.length ≤ bound → Spells (constExprWithin bound) w w := by
    induction init generalizing w with
    | nil =>
      cases hw
      intro bound hbound
      obtain ⟨bound, rfl⟩ := Nat.exists_eq_succ_of_ne_zero (Nat.ne_of_gt hbound)
      exact (Spells.byte 0x0B).bind_nil (.done _)
    | cons i init ih =>
      obtain ⟨first, hfirst, hw⟩ := of_bind hw
      obtain ⟨others, hothers, hw⟩ := of_bind hw
      cases hw
      obtain ⟨hi, hinit⟩ := forall_mem_cons.mp h
      obtain ⟨v, rfl, hv⟩ := constImm_spells hi hfirst
      intro bound hbound
      simp only [length_cons, length_append] at hbound
      obtain ⟨bound, rfl⟩ := Nat.exists_eq_succ_of_ne_zero (show bound ≠ 0 by omega)
      have hread : Spells (constExprWithin (bound + 1)) ([i.op] ++ (v ++ others))
          (i.op :: (v ++ others)) := by
        refine (Spells.byte i.op).bind ?_
        rw [if_neg hi.ne_end]
        exact hv.bind (ih hinit hothers bound (by omega)).bind_pure
      exact hread
  intro rest pos
  exact hwithin _ (by simp) rest pos

end Wire

end HostCatch
