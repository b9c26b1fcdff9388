import HostCatch.Proofs.Wire.Leb128

namespace HostCatch

open List Reader

namespace Reader

variable {α : Type} {p : Reader α} {write : α → Bytes} {as : List α}

theorem u32_spells (v : UInt32) : Spells u32 (Leb128.u32 v) v :=
  (Leb128.readU32_spells v).placingOverflow

theorem u64_spells (v : UInt64) : Spells u64 (Leb128.u64 v) v :=
  (Leb128.readU64_spells v).placingOverflow

theorem toNat_ofNat_size {n : Nat} (hn : n < 2 ^ 32) : (UInt32.ofNat n).toNat = n :=
  UInt32.toNat_ofNat_of_lt' hn

theorem counted_spells {count : Reader UInt32}
    (hcount : Spells count (Wire.size as.length) (UInt32.ofNat as.length))
    (hlength : as.length < 2 ^ 32) (h : ∀ a ∈ as, Spells p (write a) a) :
    Spells (count >>= fun n => times p n.toNat) (Wire.list write as) as := by
  refine hcount.bind ?_
  rw [toNat_ofNat_size hlength]
  exact .times h

theorem list_spells (hlength : as.length < 2 ^ 32) (h : ∀ a ∈ as, Spells p (write a) a) :
    Spells (list p) (Wire.list write as) as :=
  counted_spells (u32_spells _) hlength h

theorem list_yields {P : α → Prop} (hp : Yields p P) :
    Yields (list p) fun as => as.length < 2 ^ 32 ∧ ∀ a ∈ as, P a := by
  refine .skip fun n _ as _ h => ?_
  obtain ⟨hlength, hall⟩ := times_yields hp n.toNat h
  exact ⟨hlength ▸ n.toNat_lt, hall⟩

theorem length_le_flatMap (h : ∀ a ∈ as, write a ≠ []) : as.length ≤ (as.flatMap write).length := by
  induction as with
  | nil => simp
  | cons a as ih =>
    have ha := length_pos_iff.mpr (h a (by simp))
    have has := ih fun b hb => h b (by simp [hb])
    simp only [length_cons, flatMap_cons, length_append]
    omega

theorem length_le_of_mem (write : α → Bytes) {a : α} (h : a ∈ as) :
    (write a).length ≤ (as.flatMap write).length :=
  (sublist_flatten_of_mem (mem_map_of_mem h)).length_le

theorem length_lt_of_list (h : ∀ a ∈ as, write a ≠ [])
    (hlength : (Wire.list write as).length < 2 ^ 32) : as.length < 2 ^ 32 := by
  have := length_le_flatMap h
  simp only [Wire.list, length_append] at hlength
  omega

theorem littleEndian_length (n v : Nat) : (Wire.littleEndian n v).length = n := by
  induction n generalizing v with
  | zero => rfl
  | succ n ih => simp [Wire.littleEndian, ih]

theorem littleEndian_littleEndian (n v : Nat) :
    littleEndian (Wire.littleEndian n v) = v % 256 ^ n := by
  induction n generalizing v with
  | zero => simp [Wire.littleEndian, littleEndian, Nat.mod_one]
  | succ n ih =>
    have hrest : (Wire.littleEndian n (v / 256)).foldr (fun b n => b.toNat + 256 * n) 0 =
        v / 256 % 256 ^ n := ih (v / 256)
    simp only [Wire.littleEndian, littleEndian, foldr_cons, UInt8.toNat_ofNat', hrest]
    have hpow : 256 ^ (n + 1) = 256 * 256 ^ n := Nat.pow_succ'
    rw [hpow, Nat.mod_mul]

theorem u32le_spells (v : UInt32) : Spells u32le (Wire.u32le v) v := by
  have hread : Spells (bytes 4) (Wire.u32le v) (Wire.u32le v) := by
    have h := Spells.bytes (Wire.u32le v)
    rwa [Wire.u32le, littleEndian_length] at h
  have h := hread.bind_pure (f := fun bs => UInt32.ofNat (littleEndian bs))
  have hback : UInt32.ofNat (littleEndian (Wire.u32le v)) = v := by
    have hlt := v.toNat_lt
    rw [Wire.u32le, littleEndian_littleEndian, Nat.mod_eq_of_lt (by omega), UInt32.ofNat_toNat]
  rwa [hback] at h

theorem name_spells {s : String} (hlength : (utf8 s).length < 2 ^ 32) :
    Spells name (Wire.name s) s := by
  refine (u32_spells _).bind ?_
  rw [toNat_ofNat_size hlength]
  refine (Spells.bytes (utf8 s)).bind_nil ?_
  rw [utf8Text?_utf8]
  exact .done s

end Reader

end HostCatch
