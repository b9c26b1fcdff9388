import HostCatch.Proofs.Wire.Spelling
import Mathlib.Tactic.Ring

namespace HostCatch

namespace Leb128

open Reader

variable {n : Nat} {v : Int}

theorem ofNat_lt_iff (hn : n < 256) : UInt8.ofNat n < 0x80 ↔ n < 128 := by
  rw [UInt8.lt_iff_toNat_lt, UInt8.toNat_ofNat_of_lt' hn]
  rfl

theorem groups_last (more : Nat) (hn : n < 128) :
    Spells (groups more) [UInt8.ofNat n] [UInt8.ofNat n] := by
  have hlt : UInt8.ofNat n < 0x80 := (ofNat_lt_iff (by omega)).mpr hn
  cases more with
  | zero =>
    refine Spells.bind (.byte _) (w := []) ?_
    rw [if_pos hlt]
    exact .done _
  | succ more =>
    refine Spells.bind (.byte _) (w := []) ?_
    rw [if_pos hlt]
    exact .done _

theorem groups_more {more : Nat} {w : Bytes} (hn : n < 128) (h : Spells (groups more) w w) :
    Spells (groups (more + 1)) (UInt8.ofNat (n + 128) :: w) (UInt8.ofNat (n + 128) :: w) := by
  have hlt : ¬ UInt8.ofNat (n + 128) < 0x80 := by
    rw [ofNat_lt_iff (by omega)]
    omega
  refine Spells.bind (v := [UInt8.ofNat (n + 128)]) (.byte _) ?_
  rw [if_neg hlt]
  exact h.bind_pure

theorem unsigned_spells (more : Nat) (hn : n < 128 ^ (more + 1)) :
    Spells (groups more) (unsigned n) (unsigned n) := by
  induction more generalizing n with
  | zero =>
    have hn : n < 128 := by simpa using hn
    rw [unsigned, if_pos hn]
    exact groups_last 0 hn
  | succ more ih =>
    rw [unsigned]
    split
    next hlt => exact groups_last _ hlt
    next =>
      have hrest : n / 128 < 128 ^ (more + 1) := by
        rw [Nat.div_lt_iff_lt_mul (by decide)]
        simpa [Nat.pow_succ] using hn
      exact groups_more (Nat.mod_lt n (by decide)) (ih hrest)

theorem unsigned_ne_nil (n : Nat) : unsigned n ≠ [] := by
  rw [unsigned]
  split <;> simp

@[simp] theorem u32_ne_nil (v : UInt32) : u32 v ≠ [] :=
  unsigned_ne_nil v.toNat

theorem unsigned_length_le {k : Nat} (h : n < 128 ^ (k + 1)) : (unsigned n).length ≤ k + 1 := by
  induction k generalizing n with
  | zero =>
    rw [unsigned, if_pos (by simpa using h)]
    simp
  | succ k ih =>
    rw [unsigned]
    split
    next => simp
    next =>
      have hdiv : n / 128 < 128 ^ (k + 1) := Nat.div_lt_of_lt_mul (by rwa [← Nat.pow_succ'])
      exact Nat.succ_le_succ (ih hdiv)

theorem u32_length_lt (v : UInt32) : (u32 v).length < 2 ^ 32 := by
  have hle := unsigned_length_le (n := v.toNat) (k := 4) (Nat.lt_of_lt_of_le v.toNat_lt (by decide))
  exact Nat.lt_of_le_of_lt hle (by decide)

theorem value_cons (hn : n < 256) (w : Bytes) :
    value (UInt8.ofNat n :: w) = n % 128 + 128 * value w := by
  rw [value, UInt8.toNat_ofNat_of_lt' hn]

theorem value_unsigned (n : Nat) : value (unsigned n) = n := by
  induction n using Nat.strongRecOn with
  | ind n ih =>
    rw [unsigned]
    split
    next hlt =>
      rw [value_cons (by omega), value]
      omega
    next =>
      have hrest := ih (n / 128) (by omega)
      rw [value_cons (by omega), hrest]
      omega

theorem readUnsigned_spells {bits : Nat} (hn : n < 128 ^ (width bits + 1)) :
    Spells (readUnsigned bits) (unsigned n) (UInt64.ofNat n) := by
  have h := (unsigned_spells (width bits) hn).bind_pure (f := fun bs => UInt64.ofNat (value bs))
  rwa [value_unsigned] at h

theorem readU32_spells (v : UInt32) : Spells readU32 (u32 v) v := by
  have hv : v.toNat < 128 ^ (width 32 + 1) := Nat.lt_of_lt_of_le v.toNat_lt (by decide)
  have h := (readUnsigned_spells hv).bind_pure (f := UInt64.toUInt32)
  have hback : (UInt64.ofNat v.toNat).toUInt32 = v := by
    apply UInt32.toNat_inj.mp
    have := v.toNat_lt
    simp
  rwa [hback] at h

theorem readU64_spells (v : UInt64) : Spells readU64 (u64 v) v := by
  have hv : v.toNat < 128 ^ (width 64 + 1) := Nat.lt_of_lt_of_le v.toNat_lt (by decide)
  have h := readUnsigned_spells hv
  rwa [UInt64.ofNat_toNat] at h

theorem signed_spells (more : Nat) (hlow : -(64 * 128 ^ more) ≤ v) (hhigh : v < 64 * 128 ^ more) :
    Spells (groups more) (signed v) (signed v) := by
  induction more generalizing v with
  | zero =>
    rw [signed, if_pos (by omega)]
    exact groups_last 0 (by omega)
  | succ more ih =>
    rw [signed]
    split
    next => exact groups_last _ (by omega)
    next =>
      rw [pow_succ] at hlow hhigh
      have hrest := ih (v := v / 128) (by omega) (by omega)
      exact groups_more (by omega) hrest

/-- What `n + 1` shortest groups say of a number: they hold it in two's complement, and bit six of the
last one is its sign. -/
structure Holds (v : Int) (n : Nat) (w : Bytes) : Prop where
  length : w.length = n + 1
  low : -(64 * 128 ^ n) ≤ v
  high : v < 64 * 128 ^ n
  spelled : (value w : Int) = if v < 0 then v + 128 ^ (n + 1) else v
  sign : 0x40 ≤ w.getLastD 0 % 128 ↔ v < 0

theorem holds_last (hlow : -64 ≤ v) (hhigh : v < 64) :
    Holds v 0 [UInt8.ofNat (v % 128).toNat] where
  length := rfl
  low := by omega
  high := by omega
  spelled := by
    rw [value_cons (by omega), value]
    split <;> omega
  sign := by
    have hlt : (v % 128).toNat < 256 := by omega
    rw [List.getLastD_cons, List.getLastD_nil, UInt8.le_iff_toNat_le, UInt8.toNat_mod,
      UInt8.toNat_ofNat_of_lt' hlt]
    change 64 ≤ (v % 128).toNat % 128 ↔ _
    omega

theorem holds_more {w : Bytes} (h : Holds (v / 128) n w) :
    Holds v (n + 1) (UInt8.ofNat ((v % 128).toNat + 128) :: w) where
  length := by simp [h.length]
  low := by
    have := h.low
    rw [pow_succ]
    omega
  high := by
    have := h.high
    rw [pow_succ]
    omega
  spelled := by
    have hrest := h.spelled
    rw [value_cons (by omega), pow_succ]
    push_cast
    rw [hrest]
    split <;> split <;> omega
  sign := by
    have hlast : (UInt8.ofNat ((v % 128).toNat + 128) :: w).getLastD 0 = w.getLastD 0 := by
      cases w with
      | nil => exact absurd h.length (by simp)
      | cons b w => simp
    rw [hlast, h.sign]
    omega

theorem signed_holds (v : Int) : ∃ n, Holds v n (signed v) := by
  fun_induction signed v with
  | case1 v hv => exact ⟨0, holds_last hv.1 hv.2⟩
  | case2 v hv ih =>
    obtain ⟨n, h⟩ := ih
    exact ⟨n + 1, holds_more h⟩

/-- Read as 64 bits, shortest groups give the number back. -/
theorem ofInt_signedValue (v : Int) : Int64.ofInt (signedValue (signed v)) = Int64.ofInt v := by
  obtain ⟨n, h⟩ := signed_holds v
  unfold signedValue
  rw [h.length, h.spelled]
  have hpow : ((1 <<< (7 * (n + 1)) : Nat) : Int) = 128 ^ (n + 1) := by
    rw [Nat.one_shiftLeft, pow_mul]
    norm_num
  by_cases hneg : v < 0
  · by_cases hlen : 7 * (n + 1) < 64
    · rw [if_pos ⟨hlen, h.sign.mpr hneg⟩, if_pos hneg, hpow]
      congr 1
      omega
    · rw [if_neg (fun hboth => hlen hboth.1), if_pos hneg]
      have hwide : (128 : Int) ^ (n + 1) = 2 ^ 64 * 2 ^ (7 * (n + 1) - 64) := by
        rw [← pow_add, Nat.add_sub_cancel' (by omega), pow_mul]
        norm_num
      rw [hwide]
      apply Int64.toInt_inj.mp
      simp
  · rw [if_neg (fun hboth => hneg (h.sign.mp hboth.2)), if_neg hneg]

theorem readSigned_spells {bits : Nat} (hlow : -(64 * 128 ^ width bits) ≤ v)
    (hhigh : v < 64 * 128 ^ width bits) : Spells (readSigned bits) (signed v) (Int64.ofInt v) := by
  have h := (signed_spells (width bits) hlow hhigh).bind_pure
    (f := fun bs => Int64.ofInt (signedValue bs))
  rwa [ofInt_signedValue] at h

theorem readS32_spells (v : Int32) : Spells readS32 (s32 v) v := by
  have hlow := v.le_toInt
  have hhigh := v.toInt_lt
  have hread : Spells (readSigned 32) (s32 v) (Int64.ofInt v.toInt) :=
    readSigned_spells (by norm_num [width]; omega) (by norm_num [width]; omega)
  have hback : (Int64.ofInt v.toInt).toInt32 = v := by
    apply Int32.toInt_inj.mp
    simp
  have h := hread.bind_pure (f := Int64.toInt32)
  rwa [hback] at h

theorem readS64_spells (v : Int64) : Spells readS64 (s64 v) v := by
  have hlow := v.le_toInt
  have hhigh := v.toInt_lt
  have hread : Spells (readSigned 64) (s64 v) (Int64.ofInt v.toInt) :=
    readSigned_spells (by norm_num [width]; omega) (by norm_num [width]; omega)
  rwa [Int64.ofInt_toInt] at hread

end Leb128

end HostCatch
