import HostCatch.Proofs.Wire.Instr
import HostCatch.Proofs.Wire.Shrinking
import Mathlib.Data.Nat.Bitwise

namespace HostCatch

open List

namespace Reader

open Wire Leb128

variable {α β : Type} {write : β → Bytes} {c c' : Cursor} {w : Bytes}

/-- Five groups hold more than 32 bits; the bits that are dropped make no number longer. -/
theorem readS32_shrinks : Shrinks readS32 s32 := by
  intro c v c' h
  obtain ⟨wide, d, hwide, h⟩ := of_bind h
  cases h
  obtain ⟨w, e, hw, hwide⟩ := of_bind hwide
  cases hwide
  obtain ⟨hpos, hle, hlength⟩ := groups_length hw
  cases w with
  | nil => cases hpos
  | cons b bs =>
    have hgroups : bs.length ≤ 4 := by
      simp only [length_cons, width] at hle
      omega
    have hfits : (s32 (Int64.ofInt (signedValue (b :: bs))).toInt32).length ≤ bs.length + 1 := by
      by_cases hfull : bs.length = 4
      · rw [hfull]
        have hlow := (Int64.ofInt (signedValue (b :: bs))).toInt32.le_toInt
        have hhigh := (Int64.ofInt (signedValue (b :: bs))).toInt32.toInt_lt
        exact signed_length_le (by omega) (by omega)
      · have hnarrow : 7 * (b :: bs).length < 64 := by
          rw [length_cons]
          omega
        obtain ⟨hlow, hhigh⟩ := signedValue_bounds hnarrow
        have hpow : (128 : Int) ^ bs.length ≤ 128 ^ 3 := by
          exact_mod_cast Nat.pow_le_pow_right (by decide : 0 < 128) (by omega)
        have hexact : (Int64.ofInt (signedValue (b :: bs))).toInt32.toInt = signedValue (b :: bs) := by
          rw [Int64.toInt32_ofInt, Int32.toInt_ofInt_of_le (by omega) (by omega)]
        rw [s32, hexact]
        exact signed_length_le hlow hhigh
    rw [length_cons] at hlength
    omega

/-- A memory argument is written with the alignment that was read, bit six included. -/
theorem bits_and_not_or {raw : UInt32} (h : raw &&& 0x40 ≠ 0) :
    (raw &&& ~~~(0x40 : UInt32)) ||| 0x40 = raw := by
  have hset : raw &&& 0x40 = 0x40 := by
    apply UInt32.toNat_inj.mp
    have hbit : (raw &&& 0x40).toNat = (raw.toNat.testBit 6).toNat * 64 := Nat.and_two_pow raw.toNat 6
    cases hraw : raw.toNat.testBit 6 with
    | false =>
      rw [hraw] at hbit
      exact absurd (UInt32.toNat_inj.mp hbit) h
    | true =>
      rw [hraw] at hbit
      exact hbit
  have hsplit : raw &&& (~~~0x40 ||| 0x40) = (raw &&& ~~~(0x40 : UInt32)) ||| (raw &&& 0x40) :=
    UInt32.toBitVec_inj.mp BitVec.and_or_distrib_left
  rw [hset] at hsplit
  rw [← hsplit, UInt32.not_or_self, UInt32.and_neg_one]

theorem memArg_shrinks : Shrinks memArg Wire.memArg := by
  intro c arg c' h
  obtain ⟨raw, d, hraw, h⟩ := of_bind h
  have hclear : (raw &&& ~~~(0x40 : UInt32)).toNat ≤ raw.toNat := by
    rw [UInt32.toNat_and]
    exact Nat.and_le_left
  have hplain := readU32_length hraw hclear
  rw [size, UInt32.ofNat_toNat] at hplain
  split at h
  next hset =>
    obtain ⟨mem, e, hmem, h⟩ := of_bind h
    obtain ⟨offset, f, hoffset, h⟩ := of_bind h
    cases h
    have hraw := readU32_shrinks _ _ _ hraw
    have hmem := readU32_shrinks _ _ _ hmem
    have hoffset := readU64_shrinks _ _ _ hoffset
    -- an index of zero is dropped together with the bit that announces it
    unfold Wire.memArg
    dsimp only
    split
    next =>
      rw [length_append]
      omega
    next =>
      rw [bits_and_not_or hset, length_append, length_append]
      omega
  next =>
    obtain ⟨mem, e, hmem, h⟩ := of_bind h
    cases hmem
    obtain ⟨offset, f, hoffset, h⟩ := of_bind h
    cases h
    have hoffset := readU64_shrinks _ _ _ hoffset
    simp only [Wire.memArg, ↓reduceIte, length_append]
    omega

theorem catchClause_shrinks : Shrinks catchClause Wire.catchClause := by
  unfold catchClause
  simp only [ite_bind]
  refine byte_shrinks.bind fun kind => (readU32_shrinks.ite 0).bind fun tag => ?_
  exact readU32_shrinks.bind fun label => .done (by simp [Wire.catchClause])

theorem Shrinks.counted {p : Reader α} {first : α → Bytes} (hp : Shrinks p first)
    {f : List α → Reader β}
    (hf : ∀ as, Shrinks (f as) fun b => (write b).drop (Wire.list first as).length) :
    Shrinks (readU32 >>= fun n => times p n.toNat >>= f) write := by
  rw [← bind_assoc]
  refine Shrinks.bind (fun c as c' h => ?_) hf
  obtain ⟨n, d, hn, h⟩ := of_bind h
  have hcount := readU32_length hn (Nat.le_of_eq (times_eq_ok h).1)
  have hentries := times_shrinks hp n.toNat _ _ _ h
  simp only [Wire.list, length_append]
  omega

theorem wholeBytes_length {n : Nat} (h : wholeBytes n c = .ok w c') :
    n + c'.rest.length = c.rest.length := by
  unfold wholeBytes at h
  split at h
  next hread =>
    cases h
    rw [← bytes_eq_ok hread]
    exact bytes_length hread
  next => cases h

theorem fixed_shrinks {n : Nat} {f : Bytes → β} (h : ∀ w, (write (f w)).length = n) :
    Shrinks (wholeBytes n >>= fun w => pure (f w)) write := by
  intro c b c' hread
  obtain ⟨w, d, hw, hread⟩ := of_bind hread
  cases hread
  rw [h]
  exact Nat.le_of_eq (wholeBytes_length hw)

/-- What an immediate is written as, if it can be. -/
def written (layout : Layout) (i : Imm) : Bytes :=
  (Wire.imm layout i).toOption.getD []

theorem written_of_eq {layout : Layout} {i : Imm} (h : Wire.imm layout i = .ok w) :
    written layout i = w := by
  rw [written, h]
  rfl

theorem miscImm_shrinks : Shrinks miscImm (written .misc) := by
  refine readU32_shrinks.bind fun sub => ?_
  cases harity : miscArity? sub with
  | none => exact .failed
  | some n =>
    refine (times_shrinks readU32_shrinks n).bind fun operands => .done ?_
    have htaken : operands.flatMap Leb128.u32 = (operands.take n).flatMap Leb128.u32 ++
        (operands.drop n).flatMap Leb128.u32 := by
      rw [← flatMap_append, take_append_drop]
    rw [htaken, written, Wire.imm, Wire.miscImm, harity]
    dsimp only [Option.getD_some]
    split
    all_goals
      simp only [Except.toOption, Option.getD_some, Option.getD_none, length_drop,
        length_append, length_nil]
      omega

theorem simdImm_shrinks : Shrinks simdImm Wire.simdImm := by
  refine readU32_shrinks.bind fun sub => ?_
  cases SimdLayout.ofOpcode sub with
  | none => exact .done (by simp [Wire.simdImm])
  | memory => exact memArg_shrinks.bind fun arg => .done (by simp [Wire.simdImm])
  | bytes => exact (bytes_shrinks 16).bind fun bs => .done (by simp [Wire.simdImm])
  | lane => exact byte_shrinks.bind fun lane => .done (by simp [Wire.simdImm])
  | memoryLane =>
    exact memArg_shrinks.bind fun arg => byte_shrinks.bind fun lane => .done (by simp [Wire.simdImm])

theorem atomicImm_shrinks : Shrinks atomicImm (written .atomic) := by
  refine readU32_shrinks.bind fun sub => .branch (fun hfence => ?_) fun hfence => ?_
  · exact byte_shrinks.bind fun reserved => .done (by simp [written, Wire.imm, Except.toOption, Wire.atomicImm, hfence])
  · exact memArg_shrinks.bind fun arg => .done (by simp [written, Wire.imm, Except.toOption, Wire.atomicImm, hfence])

theorem gcImm_shrinks : Shrinks gcImm Wire.gcImm := by
  refine readU32_shrinks.bind fun sub => ?_
  cases hlayout : GcLayout.ofOpcode? sub with
  | none => exact .failed
  | some layout =>
    cases layout with
    | none => exact .done (by simp [Wire.gcImm, hlayout])
    | type => exact readU32_shrinks.bind fun type => .done (by simp [Wire.gcImm, hlayout])
    | typeField | typeSize | typeData | typeElem | typeType =>
      exact readU32_shrinks.bind fun first => readU32_shrinks.bind fun second => .done
        (by simp [Wire.gcImm, hlayout])
    | heap => exact readS64_shrinks.bind fun heap => .done (by simp [Wire.gcImm, hlayout])
    | cast =>
      refine byte_shrinks.bind fun castFlags => readU32_shrinks.bind fun label => ?_
      exact readS64_shrinks.bind fun heap => readS64_shrinks.bind fun heap2 => .done
        (by simp [Wire.gcImm, hlayout])

theorem selectImm_shrinks : Shrinks selectImm (written .select) := by
  refine extType_shrinks.counted fun types => .done ?_
  -- a type that names no heap type is written by its code in either form
  have hcodes (hrefs : types.any ExtType.isRef = false) :
      Wire.list (fun code => [code]) (types.map ExtType.code) = Wire.list Wire.extType types := by
    have hplain : ∀ type ∈ types, [type.code] = Wire.extType type := by
      intro type htype
      have href : type.isRef = false := by simpa using any_eq_false.mp hrefs type htype
      cases type with
      | plain code => rfl
      | ref code type => cases href
    rw [Wire.list, Wire.list, length_map, flatMap_map, flatMap_congr hplain]
  have hsame : written .select (.select (types.map ExtType.code)
      (if types.any ExtType.isRef then types else [])) = Wire.list Wire.extType types := by
    cases hrefs : types.any ExtType.isRef with
    | true =>
      have hne : types ≠ [] := by
        rintro rfl
        cases hrefs
      exact if_neg hne
    | false => exact hcodes hrefs
  rw [length_drop]
  exact Nat.sub_eq_zero_of_le (Nat.le_of_eq (congrArg List.length hsame))

/-- Operands of every layout are written no longer than they were. -/
theorem imm_shrinks (layout : Layout) : Shrinks (imm layout) (written layout) := by
  cases layout with
  | none => exact .done rfl
  | block | i32 => exact .map readS32_shrinks
  | branch | call | callRef | localVar | globalVar | table | memIndex | refFunc | throw =>
    exact .map readU32_shrinks
  | i64 | refNull => exact .map readS64_shrinks
  | brTable =>
    exact readU32_shrinks.counted fun labels => readU32_shrinks.bind fun default => .done
      (by simp [written, Wire.imm, Except.toOption])
  | callIndirect =>
    exact readU32_shrinks.bind fun type => readU32_shrinks.bind fun table => .done
      (by simp [written, Wire.imm, Except.toOption])
  | memory => exact .map memArg_shrinks
  | f32 => exact fixed_shrinks fun w => littleEndian_length _ _
  | f64 => exact fixed_shrinks fun w => littleEndian_length _ _
  | misc => exact miscImm_shrinks
  | select => exact selectImm_shrinks
  | simd => exact .map simdImm_shrinks
  | atomic => exact atomicImm_shrinks
  | gc => exact .map gcImm_shrinks
  | tryTable =>
    exact readS32_shrinks.bind fun type => catchClause_shrinks.counted fun catches => .done
      (by simp [written, Wire.imm, Except.toOption])

theorem instr_length {i : Wire.Instr} (h : instr c = .ok i c') (hw : Wire.instr i = .ok w) :
    w.length + c'.rest.length ≤ c.rest.length := by
  obtain ⟨op, d, hop, h⟩ := of_bind h
  have hop := byte_length hop
  cases hlayout : Layout.ofOpcode? op with
  | none =>
    rw [hlayout] at h
    exact absurd h throw_ne_ok
  | some layout =>
    rw [hlayout] at h
    obtain ⟨imm, e, himm, h⟩ := of_bind h
    cases h
    simp only [Wire.instr, hlayout] at hw
    obtain ⟨v, hv, rfl⟩ := HostCatch.map_eq_ok_iff.mp hw
    have himm := imm_shrinks layout _ _ _ himm
    rw [written_of_eq hv] at himm
    rw [length_cons]
    omega

/-- So is code. -/
theorem instrs_length {bound : Nat} {is : List Wire.Instr} (h : instrs bound c = .ok is c')
    (hw : encodeInstrs is = .ok w) : w.length + c'.rest.length ≤ c.rest.length := by
  induction bound generalizing c is w with
  | zero =>
    cases h
    cases hw
    simp
  | succ bound ih =>
    obtain ⟨ended, d, hended, h⟩ := of_bind h
    cases hended
    split at h
    next =>
      cases h
      cases hw
      simp
    next =>
      obtain ⟨first, e, hfirst, h⟩ := of_bind h
      obtain ⟨rest, f, hrest, h⟩ := of_bind h
      cases h
      obtain ⟨v, hv, hw⟩ := HostCatch.of_bind hw
      obtain ⟨others, hothers, hw⟩ := HostCatch.of_bind hw
      obtain rfl := HostCatch.pure_eq_ok_iff.mp hw
      have hfirst := instr_length hfirst hv
      have hrest := ih hrest hothers
      rw [length_append]
      omega

end Reader

namespace Wire

/-- Code that was read is written again, in no more bytes than it was read from, and what is written
is read as the same instructions. -/
theorem decodeInstrs_again {code : Bytes} {is : List Instr} (h : decodeInstrs code = .ok is) :
    ∃ w, encodeInstrs is = .ok w ∧ w.length ≤ code.length ∧ decodeInstrs w = .ok is := by
  obtain ⟨w, hw, hread⟩ := decodeInstrs_encodeInstrs (decodeInstrs_spelled h)
  obtain ⟨c, h⟩ := Reader.run_eq_ok h
  have hlength : w.length + c.rest.length ≤ code.length := Reader.instrs_length h hw
  exact ⟨w, hw, by omega, hread⟩

/-- A load that names memory 0 at length, a fence whose reserved byte is not zero, and a typed
select. -/
def wordyCode : Bytes :=
  [0x28, 0x42, 0x80, 0x00, 0x04, 0xFE, 0x83, 0x00, 0x07, 0x1C, 0x81, 0x00, 0x63, 0xF0, 0x7F]

def wordyInstrs : List Instr :=
  [⟨0x28, .memory ⟨2, 4, 0⟩⟩, ⟨0xFE, .atomic 3 none⟩,
    ⟨0x1C, .select [0x63] [.ref 0x63 ⟨true, -16⟩]⟩]

theorem wordyCode_again : decodeInstrs wordyCode = .ok wordyInstrs ∧ ∃ w,
    encodeInstrs wordyInstrs = .ok w ∧ w.length ≤ wordyCode.length ∧
      decodeInstrs w = .ok wordyInstrs :=
  have hread : decodeInstrs wordyCode = .ok wordyInstrs := by rfl
  ⟨hread, decodeInstrs_again hread⟩

end Wire

end HostCatch
