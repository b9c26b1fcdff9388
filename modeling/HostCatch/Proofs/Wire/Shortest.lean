import HostCatch.Proofs.Wire.Shrinking
import HostCatch.Proofs.Wire.Width

namespace HostCatch

open List Reader

namespace Leb128

theorem byte_eq_of_mod {b c : UInt8} (htop : b < 0x80 ↔ c < 0x80)
    (hlow : b.toNat % 128 = c.toNat % 128) : b = c := by
  have hb := b.toNat_lt
  have hc := c.toNat_lt
  have hhalf : (0x80 : UInt8).toNat = 128 := rfl
  rw [UInt8.lt_iff_toNat_lt, UInt8.lt_iff_toNat_lt, hhalf] at htop
  apply UInt8.toNat_inj.mp
  omega

/-- Of so many groups, no others spell the same number. -/
theorem Digits.eq_of_value {ds es : Bytes} (hds : Digits ds) (hes : Digits es)
    (hlength : ds.length = es.length) (hvalue : value ds = value es) : ds = es := by
  induction hds generalizing es with
  | @last b hb =>
    cases hes with
    | @last c hc =>
      have hlow : b.toNat % 128 = c.toNat % 128 := by simpa [value] using hvalue
      rw [byte_eq_of_mod (iff_of_true hb hc) hlow]
    | more _ hrest =>
      have := length_pos_iff.mpr hrest.ne_nil
      simp only [length_cons, length_nil] at hlength
      omega
  | @more b ds hb hds ih =>
    cases hes with
    | last _ =>
      have := length_pos_iff.mpr hds.ne_nil
      simp only [length_cons, length_nil] at hlength
      omega
    | @more c es hc hes =>
      have hb' : b.toNat % 128 < 128 := Nat.mod_lt _ (by decide)
      have hc' : c.toNat % 128 < 128 := Nat.mod_lt _ (by decide)
      rw [value, value] at hvalue
      have hrest := ih hes (Nat.succ.inj hlength) (by omega)
      rw [byte_eq_of_mod (iff_of_false hb hc) (by omega), hrest]

theorem Digits.eq_of_exactSigned {ds es : Bytes} (hds : Digits ds) (hes : Digits es)
    (hlength : ds.length = es.length) (hexact : exactSigned ds = exactSigned es) : ds = es := by
  have hd := value_lt ds
  have he := value_lt es
  have hcast : (128 : Int) ^ es.length = (128 ^ es.length : Nat) := by
    push_cast
    rfl
  rw [exactSigned_eq hds.ne_nil, exactSigned_eq hes.ne_nil, hlength, hcast] at hexact
  rw [hlength] at hd
  refine hds.eq_of_value hes hlength ?_
  -- numbers of different signs are not the same
  split at hexact <;> split at hexact <;> omega

theorem unsigned_digits (n : Nat) : Digits (unsigned n) := by
  fun_induction unsigned n with
  | case1 n hlt => exact .last ((ofNat_lt_iff (by omega)).mpr hlt)
  | case2 n hlt ih =>
    refine .more ?_ ih
    rw [ofNat_lt_iff (by omega)]
    omega

theorem signed_digits (v : Int) : Digits (signed v) := by
  fun_induction signed v with
  | case1 v hv => exact .last ((ofNat_lt_iff (by omega)).mpr (by omega))
  | case2 v hv ih =>
    refine .more ?_ ih
    rw [ofNat_lt_iff (by omega)]
    omega

theorem exactSigned_signed (v : Int) : exactSigned (signed v) = v := by
  obtain ⟨n, h⟩ := signed_holds v
  rw [exactSigned_eq (signed_digits v).ne_nil, h.length, h.spelled]
  by_cases hneg : v < 0
  · rw [if_pos (h.sign.mpr hneg), if_pos hneg]
    omega
  · rw [if_neg (fun hsign => hneg (h.sign.mp hsign)), if_neg hneg]

theorem toInt_exactSigned {ds : Bytes} (hds : Digits ds) (hlength : ds.length < 10) :
    (Int64.ofInt (signedValue ds)).toInt = exactSigned ds := by
  have hlt := value_lt ds
  have hpow : 128 ^ ds.length ≤ 2 ^ 63 := by
    calc 128 ^ ds.length ≤ 128 ^ 9 := Nat.pow_le_pow_right (by decide) (by omega)
      _ = 2 ^ 63 := by decide
  have hcast : (128 : Int) ^ ds.length = (128 ^ ds.length : Nat) := by
    push_cast
    rfl
  have hrange : -2 ^ 63 ≤ exactSigned ds ∧ exactSigned ds < 2 ^ 63 := by
    rw [exactSigned_eq hds.ne_nil, hcast]
    split <;> omega
  rw [ofInt_exactSigned hds.ne_nil]
  exact Int64.toInt_ofInt_of_le hrange.1 hrange.2

section

variable {α : Type}

/-- Of all bytes that a reader of numbers of `bits` bits takes for a number, none are shorter. These
are read as the number whatever follows them, and other bytes of their length are not, unless they are
ten groups, of which the last holds only one bit. -/
structure Shortest (read : Nat → Reader α) (bits : Nat) (w : Bytes) (a : α) : Prop where
  spells : Spells (read bits) w a
  fits : w.length ≤ (bits + 6) / 7
  least : ∀ c c', read bits c = .ok a c' → ∃ u, c.Passes u c' ∧ w.length ≤ u.length ∧
    (u.length = w.length → u.length < 10 → u = w)

end

theorem two_pow_le {bits k : Nat} (h : bits ≤ 7 * k) : 2 ^ bits ≤ 128 ^ k := by
  calc 2 ^ bits ≤ 2 ^ (7 * k) := Nat.pow_le_pow_right (by decide) h
    _ = 128 ^ k := by rw [Nat.pow_mul]

/-- No shorter bytes are read as the number. -/
theorem unsigned_shortest (bits : Nat) (hpos : 0 < bits) {v : UInt64} (hv : v.toNat < 2 ^ bits) :
    Shortest readUnsigned bits (u64 v) v := by
  have hgroups : width bits + 1 = (bits + 6) / 7 := by
    unfold width
    omega
  have hlt : v.toNat < 128 ^ (width bits + 1) := Nat.lt_of_lt_of_le hv (two_pow_le (by omega))
  constructor
  · have hspells := readUnsigned_spells hlt
    rwa [UInt64.ofNat_toNat] at hspells
  · exact hgroups ▸ unsigned_length_le hlt
  · intro c c' h
    have hshrinks := readUnsigned_length h (Nat.le_refl _)
    obtain ⟨ds, d, hds, h⟩ := Reader.of_bind h
    cases h
    obtain ⟨hdigits, -, hpasses⟩ := groups_eq_ok_iff.mp hds
    rw [hpasses.rest, length_append] at hshrinks
    refine ⟨ds, hpasses, Nat.le_of_add_le_add_right hshrinks, fun hlength hnine => ?_⟩
    have hfits : value ds < 2 ^ 64 := by
      calc value ds < 128 ^ ds.length := value_lt ds
        _ ≤ 128 ^ 9 := Nat.pow_le_pow_right (by decide) (by omega)
        _ ≤ 2 ^ 64 := by decide
    refine hdigits.eq_of_value (unsigned_digits _) hlength ?_
    rw [u64, value_unsigned, UInt64.toNat_ofNat', Nat.mod_eq_of_lt hfits]

theorem signed_shortest (bits : Nat) (hpos : 0 < bits) (hbits : bits ≤ 64) {s : Int64}
    (hlow : -2 ^ (bits - 1) ≤ s.toInt) (hhigh : s.toInt < 2 ^ (bits - 1)) :
    Shortest readSigned bits (s64 s) s := by
  have hgroups : width bits + 1 = (bits + 6) / 7 := by
    unfold width
    omega
  have hwide : (2 : Int) ^ (bits - 1) ≤ 64 * 128 ^ width bits := by
    have hsplit : 2 ^ (bits - 1) ≤ 2 ^ 6 * 128 ^ width bits := by
      calc 2 ^ (bits - 1) ≤ 2 ^ (6 + 7 * width bits) := Nat.pow_le_pow_right (by decide) (by omega)
        _ = 2 ^ 6 * 128 ^ width bits := by rw [Nat.pow_add, Nat.pow_mul]
    exact_mod_cast hsplit
  constructor
  · have hspells : Spells (readSigned bits) (signed s.toInt) (Int64.ofInt s.toInt) :=
      readSigned_spells (by omega) (by omega)
    rwa [Int64.ofInt_toInt] at hspells
  · exact hgroups ▸ signed_length_le (by omega) (by omega)
  · intro c c' h
    have hshrinks := readSigned_shrinks (by unfold width; omega) _ _ _ h
    obtain ⟨ds, d, hds, h⟩ := Reader.of_bind h
    cases h
    obtain ⟨hdigits, -, hpasses⟩ := groups_eq_ok_iff.mp hds
    rw [hpasses.rest, length_append] at hshrinks
    refine ⟨ds, hpasses, Nat.le_of_add_le_add_right hshrinks, fun hlength hnine => ?_⟩
    refine hdigits.eq_of_exactSigned (signed_digits _) hlength ?_
    rw [s64, exactSigned_signed, toInt_exactSigned hdigits hnine]

/-- Numbers are written with the shortest groups that are read as them, with 64 bits and, where they
fit, with 32. -/
theorem written_shortest (v : UInt64) (s : Int64) :
    Shortest readUnsigned 64 (u64 v) v ∧
      (v.toNat < 2 ^ 32 → Shortest readUnsigned 32 (u64 v) v) ∧
      Shortest readSigned 64 (s64 s) s ∧
      (-2 ^ 31 ≤ s.toInt → s.toInt < 2 ^ 31 → Shortest readSigned 32 (s64 s) s) :=
  ⟨unsigned_shortest 64 (by decide) v.toNat_lt, unsigned_shortest 32 (by decide),
    signed_shortest 64 (by decide) (by decide) s.le_toInt s.toInt_lt,
    signed_shortest 32 (by decide) (by decide)⟩

theorem edges_shortest : u64 0xFFFFFFFF = [0xFF, 0xFF, 0xFF, 0xFF, 0x0F] ∧
    Shortest readUnsigned 32 (u64 0xFFFFFFFF) 0xFFFFFFFF ∧
    s64 (-0x80000000) = [0x80, 0x80, 0x80, 0x80, 0x78] ∧
    Shortest readSigned 32 (s64 (-0x80000000)) (-0x80000000) := by
  obtain ⟨-, hunsigned, -, hsigned⟩ := written_shortest 0xFFFFFFFF (-0x80000000)
  refine ⟨by decide +kernel, hunsigned (by decide), by decide +kernel, hsigned (by decide) (by decide)⟩

end Leb128

end HostCatch
