import HostCatch.Proofs.Wire.Leb128

namespace HostCatch

open List Reader

/-- A number was too long or too wide for what it was read as. -/
def ReadFault.IsOverflow : ReadFault → Prop
  | .overflow => True
  | .overflowAt _ => True
  | _ => False

/-- Between two cursors lie these bytes. -/
structure Cursor.Passes (c : Cursor) (w : Bytes) (c' : Cursor) : Prop where
  rest : c.rest = w ++ c'.rest
  pos : c'.pos = c.pos + w.length

theorem Reader.byte_eq_ok_iff {c c' : Cursor} {b : UInt8} : byte c = .ok b c' ↔ c.Passes [b] c' := by
  obtain ⟨rest, pos⟩ := c
  obtain ⟨rest', pos'⟩ := c'
  constructor
  · intro h
    cases rest with
    | nil => cases h
    | cons a rest =>
      cases h
      exact ⟨rfl, rfl⟩
  · rintro ⟨hrest, hpos⟩
    simp only [singleton_append] at hrest
    simp only [length_singleton] at hpos
    subst hrest hpos
    rfl

namespace Leb128

variable {ds : Bytes}

/-- The groups of one number: all but the last have their top bit set. -/
inductive Digits : Bytes → Prop
  | last {b : UInt8} : b < 0x80 → Digits [b]
  | more {b : UInt8} {bs : Bytes} : ¬ b < 0x80 → Digits bs → Digits (b :: bs)

theorem Digits.ne_nil (h : Digits ds) : ds ≠ [] := by
  cases h <;> simp

theorem Digits.not_lt (h : Digits ds) {n : Nat} (hn : n < ds.length) :
    ∀ b ∈ ds.take n, ¬ b < 0x80 := by
  induction h generalizing n with
  | last hlt =>
    obtain rfl : n = 0 := Nat.lt_one_iff.mp hn
    exact fun b hb => absurd hb not_mem_nil
  | more hlt _ ih =>
    cases n with
    | zero => exact fun b hb => absurd hb not_mem_nil
    | succ n =>
      rw [take_succ_cons]
      exact forall_mem_cons.mpr ⟨hlt, ih (Nat.lt_of_succ_lt_succ hn)⟩

/-- The number that groups spell in two's complement, without a bound: bit six of the last group is the
sign. -/
def exactSigned : Bytes → Int
  | [] => 0
  | [b] => if b.toNat % 128 < 64 then (b.toNat % 128 : Nat) else (b.toNat % 128 : Nat) - 128
  | b :: bs => (b.toNat % 128 : Nat) + 128 * exactSigned bs

/-- Groups are read exactly if the input starts with no more than `more + 1` of them. -/
theorem groups_eq_ok_iff {more : Nat} {c c' : Cursor} :
    groups more c = .ok ds c' ↔ Digits ds ∧ ds.length ≤ more + 1 ∧ c.Passes ds c' := by
  induction more generalizing c ds with
  | zero =>
    constructor
    · intro h
      obtain ⟨b, d, hb, h⟩ := Reader.of_bind h
      split at h
      next hlt =>
        cases h
        exact ⟨.last hlt, Nat.le_refl 1, byte_eq_ok_iff.mp hb⟩
      next => exact absurd h throw_ne_ok
    · rintro ⟨hdigits, hlength, hpasses⟩
      cases hdigits with
      | last hlt =>
        refine Reader.bind_eq_ok_iff.mpr ⟨_, _, byte_eq_ok_iff.mpr hpasses, ?_⟩
        rw [if_pos hlt]
        rfl
      | more _ hrest =>
        cases hrest <;> simp at hlength
  | succ more ih =>
    constructor
    · intro h
      obtain ⟨b, d, hb, h⟩ := Reader.of_bind h
      have hone := byte_eq_ok_iff.mp hb
      split at h
      next hlt =>
        cases h
        exact ⟨.last hlt, by simp, hone⟩
      next hlt =>
        obtain ⟨bs, e, hbs, h⟩ := Reader.of_bind h
        cases h
        obtain ⟨hdigits, hlength, hpasses⟩ := ih.mp hbs
        refine ⟨.more hlt hdigits, Nat.succ_le_succ hlength, ?_, ?_⟩
        · rw [hone.rest, hpasses.rest]
          rfl
        · rw [hpasses.pos, hone.pos, length_cons, length_cons, length_nil]
          omega
    · rintro ⟨hdigits, hlength, hpasses⟩
      cases hdigits with
      | last hlt =>
        refine Reader.bind_eq_ok_iff.mpr ⟨_, _, byte_eq_ok_iff.mpr hpasses, ?_⟩
        rw [if_pos hlt]
        rfl
      | @more b bs hlt hrest =>
        have hone : c.Passes [b] ⟨bs ++ c'.rest, c.pos + 1⟩ := ⟨hpasses.rest, rfl⟩
        have hothers : (⟨bs ++ c'.rest, c.pos + 1⟩ : Cursor).Passes bs c' := by
          refine ⟨rfl, ?_⟩
          rw [hpasses.pos, length_cons]
          dsimp only
          omega
        refine Reader.bind_eq_ok_iff.mpr ⟨b, _, byte_eq_ok_iff.mpr hone, ?_⟩
        rw [if_neg hlt]
        have hbs := ih.mpr ⟨hrest, Nat.le_of_succ_le_succ hlength, hothers⟩
        exact Reader.bind_eq_ok_iff.mpr ⟨bs, c', hbs, rfl⟩

theorem groups_overflow {more : Nat} {c : Cursor} {w rest : Bytes} (hlength : w.length = more + 1)
    (hw : ∀ b ∈ w, ¬ b < 0x80) (hrest : c.rest = w ++ rest) :
    ∃ c', groups more c = .error .overflow c' := by
  induction more generalizing c w with
  | zero =>
    obtain ⟨b, rfl⟩ := length_eq_one_iff.mp hlength
    have hb : byte c = .ok b ⟨rest, c.pos + 1⟩ := byte_eq_ok_iff.mpr ⟨hrest, rfl⟩
    refine ⟨⟨rest, c.pos + 1⟩, ?_⟩
    change EStateM.bind byte _ c = _
    rw [EStateM.bind, hb]
    dsimp only
    rw [if_neg (hw b mem_cons_self)]
    rfl
  | succ more ih =>
    obtain ⟨b, w, rfl⟩ := exists_cons_of_length_eq_add_one hlength
    have hb : byte c = .ok b ⟨w ++ rest, c.pos + 1⟩ := byte_eq_ok_iff.mpr ⟨hrest, rfl⟩
    obtain ⟨c', hc'⟩ := ih (c := ⟨w ++ rest, c.pos + 1⟩) (w := w) (by simpa using hlength)
      (fun b hb => hw b (mem_cons_of_mem _ hb)) rfl
    refine ⟨c', ?_⟩
    change EStateM.bind byte _ c = _
    rw [EStateM.bind, hb]
    dsimp only
    rw [if_neg (hw b mem_cons_self)]
    change EStateM.bind (groups more) _ _ = _
    rw [EStateM.bind, hc']

/-- The sign of groups is that of their last one, and it counts behind all of them. -/
theorem exactSigned_eq (hds : ds ≠ []) : exactSigned ds =
      if 0x40 ≤ ds.getLastD 0 % 128 then (value ds : Int) - 128 ^ ds.length else value ds := by
  induction ds with
  | nil => exact absurd rfl hds
  | cons b ds ih =>
    cases ds with
    | nil =>
      have hsign : 0x40 ≤ b % 128 ↔ ¬ b.toNat % 128 < 64 := by
        rw [UInt8.le_iff_toNat_le, UInt8.toNat_mod]
        exact Nat.not_lt.symm
      simp only [exactSigned, getLastD_cons, getLastD_nil, hsign, value]
      split <;> simp
    | cons d ds =>
      have hlast : (b :: d :: ds).getLastD 0 = (d :: ds).getLastD 0 := by
        simp only [getLastD_cons]
      have hvalue : value (b :: d :: ds) = b.toNat % 128 + 128 * value (d :: ds) := rfl
      rw [exactSigned, ih (cons_ne_nil d ds), hlast, hvalue]
      · split
        · rw [length_cons (a := b), pow_succ]
          push_cast
          ring
        · push_cast
          ring
      · simp

/-- The low 64 bits of groups are those of the number that they spell. -/
theorem ofInt_exactSigned (hds : ds ≠ []) :
    Int64.ofInt (signedValue ds) = Int64.ofInt (exactSigned ds) := by
  rw [exactSigned_eq hds, signedValue]
  have hpow : ((1 <<< (7 * ds.length) : Nat) : Int) = 128 ^ ds.length := by
    rw [Nat.one_shiftLeft, pow_mul]
    norm_num
  by_cases hsign : 0x40 ≤ ds.getLastD 0 % 128
  · by_cases hlength : 7 * ds.length < 64
    · rw [if_pos ⟨hlength, hsign⟩, if_pos hsign, hpow]
    · -- what the sign counts is beyond the bits that are kept
      have hwide : (128 : Int) ^ ds.length = 2 ^ 64 * 2 ^ (7 * ds.length - 64) := by
        rw [← pow_add, Nat.add_sub_cancel' (by omega), pow_mul]
        norm_num
      rw [if_neg (fun hboth => hlength hboth.1), if_pos hsign, hwide]
      apply Int64.toInt_inj.mp
      simp
  · rw [if_neg (fun hboth => hsign hboth.2), if_neg hsign]

/-- How numbers of one width are read: in how many groups at most, which number the groups spell, and
what is made of a number, exactly for those from `low` on and below `high`. -/
structure Width (α : Type) where
  read : Reader α
  most : Nat
  exact : Bytes → Int
  ofInt : Int → α
  toInt : α → Int
  low : Int
  high : Int

namespace Width

def u32 : Width UInt32 :=
  ⟨readU32, 5, fun ds => value ds, fun z => UInt32.ofNat (z % 0x100000000).toNat, fun v => v.toNat,
    0, 0x100000000⟩

def u64 : Width UInt64 :=
  ⟨readU64, 10, fun ds => value ds, fun z => UInt64.ofNat (z % 0x10000000000000000).toNat,
    fun v => v.toNat, 0, 0x10000000000000000⟩

def s32 : Width Int32 :=
  ⟨readS32, 5, exactSigned, Int32.ofInt, Int32.toInt, -0x80000000, 0x80000000⟩

def s64 : Width Int64 :=
  ⟨readS64, 10, exactSigned, Int64.ofInt, Int64.toInt, -0x8000000000000000, 0x8000000000000000⟩

variable {α : Type}

/-- The same numbers inside a section, where an overflow is reported with its place. -/
def placed (w : Width α) : Width α :=
  { w with read := placingOverflow w.read }

/-- On this input, numbers are given exactly for groups that spell them, and groups that spell a number
too wide are an overflow. -/
structure Keeps (w : Width α) (c : Cursor) : Prop where
  given : ∀ a c', w.read c = .ok a c' ↔
    ∃ ds, Digits ds ∧ ds.length ≤ w.most ∧ c.Passes ds c' ∧ w.exact ds = w.toInt a
  refused : ∀ ds c', Digits ds → c.Passes ds c' → ¬ (w.low ≤ w.exact ds ∧ w.exact ds < w.high) →
    ∃ fault d, w.read c = .error fault d ∧ fault.IsOverflow

/-- The input does not start with groups that are few enough and spell a number too wide. -/
def Clear (w : Width α) (c : Cursor) : Prop :=
  ∀ ds c', Digits ds → ds.length ≤ w.most → c.Passes ds c' →
    w.low ≤ w.exact ds ∧ w.exact ds < w.high

/-- What is given is the number that the groups spell, reduced to the width; groups are refused only
for their number. -/
structure Reduces (w : Width α) : Prop where
  given : ∀ c a c', w.read c = .ok a c' ↔
    ∃ ds, Digits ds ∧ ds.length ≤ w.most ∧ c.Passes ds c' ∧ a = w.ofInt (w.exact ds)
  refused : ∀ c v rest, v.length = w.most → (∀ b ∈ v, ¬ b < 0x80) → c.rest = v ++ rest →
    ∃ fault d, w.read c = .error fault d ∧ fault.IsOverflow
  fits : ∀ z, w.toInt (w.ofInt z) = z ↔ w.low ≤ z ∧ z < w.high
  back : ∀ a, w.ofInt (w.toInt a) = a

section

variable {w : Width α}

/-- A number is reduced to its width if its groups are read as digits. -/
theorem reduces_of_groups (more : Nat) (f : Bytes → α) (hmost : w.most = more + 1)
    (hread : w.read = groups more >>= fun ds => pure (f ds))
    (hf : ∀ ds, Digits ds → f ds = w.ofInt (w.exact ds))
    (hfits : ∀ z, w.toInt (w.ofInt z) = z ↔ w.low ≤ z ∧ z < w.high)
    (hback : ∀ a, w.ofInt (w.toInt a) = a) : w.Reduces where
  given := by
    intro c a c'
    rw [hread, hmost, Reader.bind_eq_ok_iff]
    constructor
    · rintro ⟨ds, d, hds, hpure⟩
      cases hpure
      obtain ⟨hdigits, hlength, hpasses⟩ := groups_eq_ok_iff.mp hds
      exact ⟨ds, hdigits, hlength, hpasses, hf ds hdigits⟩
    · rintro ⟨ds, hdigits, hlength, hpasses, rfl⟩
      refine ⟨ds, c', groups_eq_ok_iff.mpr ⟨hdigits, hlength, hpasses⟩, ?_⟩
      rw [hf ds hdigits]
      rfl
  refused := by
    intro c v rest hlength hv hrest
    obtain ⟨d, hd⟩ := groups_overflow (hlength.trans hmost) hv hrest
    refine ⟨.overflow, d, ?_, trivial⟩
    rw [hread]
    change EStateM.bind (groups more) _ c = _
    rw [EStateM.bind, hd]
  fits := hfits
  back := hback

theorem Reduces.placed (h : w.Reduces) : w.placed.Reduces where
  given := by
    intro c a c'
    have hsame : w.placed.read c = .ok a c' ↔ w.read c = .ok a c' := by
      change placingOverflow w.read c = _ ↔ _
      unfold placingOverflow
      split
      next hread => simp [hread]
      next => rfl
    rw [hsame]
    exact h.given c a c'
  refused := by
    intro c v rest hlength hv hrest
    obtain ⟨fault, d, hread, hoverflow⟩ := h.refused c v rest hlength hv hrest
    change ∃ fault d, placingOverflow w.read c = .error fault d ∧ _
    unfold placingOverflow
    rw [hread]
    cases fault with
    | overflow => exact ⟨_, d, rfl, trivial⟩
    | overflowAt pos => exact ⟨_, d, rfl, trivial⟩
    | _ => exact hoverflow.elim
  fits := h.fits
  back := h.back

/-- A width is kept on exactly those inputs that are clear of numbers too wide. -/
theorem Reduces.keeps_iff (h : w.Reduces) (c : Cursor) : w.Keeps c ↔ w.Clear c := by
  constructor
  · intro hkeeps ds c' hdigits hlength hpasses
    by_contra hwide
    obtain ⟨fault, d, hfault, -⟩ := hkeeps.refused ds c' hdigits hpasses hwide
    have hgiven := (h.given c _ c').mpr ⟨ds, hdigits, hlength, hpasses, rfl⟩
    cases hfault.symm.trans hgiven
  · intro hclear
    constructor
    · intro a c'
      rw [h.given]
      refine exists_congr fun ds => and_congr_right fun hdigits => and_congr_right fun hlength =>
        and_congr_right fun hpasses => ?_
      have hfits := (h.fits _).mpr (hclear ds c' hdigits hlength hpasses)
      constructor
      · rintro rfl
        exact hfits.symm
      · intro hexact
        rw [hexact, h.back]
    · intro ds c' hdigits hpasses hwide
      -- groups that spell a number too wide are too many here
      have hlong : w.most < ds.length := by
        by_contra hlength
        exact hwide (hclear ds c' hdigits (Nat.le_of_not_lt hlength) hpasses)
      refine h.refused c (ds.take w.most) (ds.drop w.most ++ c'.rest) ?_ (hdigits.not_lt hlong) ?_
      · rw [length_take, Nat.min_eq_left (Nat.le_of_lt hlong)]
      · rw [← append_assoc, take_append_drop]
        exact hpasses.rest

end

theorem u32_reduces : u32.Reduces := by
  refine reduces_of_groups 4 (fun ds => (UInt64.ofNat (value ds)).toUInt32) rfl ?_ ?_ ?_ ?_
  · simp [u32, readU32, readUnsigned, width]
  · intro ds _
    apply UInt32.toNat_inj.mp
    simp only [u32, UInt64.toNat_toUInt32, UInt64.toNat_ofNat', UInt32.toNat_ofNat']
    omega
  · intro z
    simp only [u32, UInt32.toNat_ofNat']
    omega
  · intro a
    have hlt := a.toNat_lt
    apply UInt32.toNat_inj.mp
    simp only [u32, UInt32.toNat_ofNat']
    omega

theorem u64_reduces : u64.Reduces := by
  refine reduces_of_groups 9 (fun ds => UInt64.ofNat (value ds)) rfl ?_ ?_ ?_ ?_
  · simp [u64, readU64, readUnsigned, width]
  · intro ds _
    apply UInt64.toNat_inj.mp
    simp only [u64, UInt64.toNat_ofNat']
    omega
  · intro z
    simp only [u64, UInt64.toNat_ofNat']
    omega
  · intro a
    have hlt := a.toNat_lt
    apply UInt64.toNat_inj.mp
    simp only [u64, UInt64.toNat_ofNat']
    omega

theorem s32_reduces : s32.Reduces := by
  refine reduces_of_groups 4 (fun ds => (Int64.ofInt (signedValue ds)).toInt32) rfl ?_ ?_ ?_ ?_
  · simp [s32, readS32, readSigned, width]
  · intro ds hds
    rw [ofInt_exactSigned hds.ne_nil]
    simp [s32]
  · intro z
    simp only [s32, Int32.toInt_ofInt]
    rw [Int.bmod_eq_iff (by decide)]
    simp
  · intro a
    simp [s32]

theorem s64_reduces : s64.Reduces := by
  refine reduces_of_groups 9 (fun ds => Int64.ofInt (signedValue ds)) rfl ?_ ?_ ?_ ?_
  · simp [s64, readS64, readSigned, width]
  · intro ds hds
    exact ofInt_exactSigned hds.ne_nil
  · intro z
    simp only [s64, Int64.toInt_ofInt]
    rw [Int.bmod_eq_iff (by decide)]
    simp
  · intro a
    simp [s64]

/-- No reader checks the last group that it may take: numbers are reduced to their width, and the width
is kept on exactly those inputs that do not start with few enough groups of a number too wide. -/
theorem keeps_iff_clear (c : Cursor) :
    (u32.Reduces ∧ (u32.Keeps c ↔ u32.Clear c)) ∧
      (u32.placed.Reduces ∧ (u32.placed.Keeps c ↔ u32.placed.Clear c)) ∧
      (u64.Reduces ∧ (u64.Keeps c ↔ u64.Clear c)) ∧
      (u64.placed.Reduces ∧ (u64.placed.Keeps c ↔ u64.placed.Clear c)) ∧
      (s32.Reduces ∧ (s32.Keeps c ↔ s32.Clear c)) ∧
      (s64.Reduces ∧ (s64.Keeps c ↔ s64.Clear c)) :=
  ⟨⟨u32_reduces, u32_reduces.keeps_iff c⟩, ⟨u32_reduces.placed, u32_reduces.placed.keeps_iff c⟩,
    ⟨u64_reduces, u64_reduces.keeps_iff c⟩, ⟨u64_reduces.placed, u64_reduces.placed.keeps_iff c⟩,
    ⟨s32_reduces, s32_reduces.keeps_iff c⟩, ⟨s64_reduces, s64_reduces.keeps_iff c⟩⟩

/-- Five groups of 33 bits are read as the 32 low ones. -/
theorem thirtyThree_bits_reduced :
    value [0xff, 0xff, 0xff, 0xff, 0x1f] = 8589934591 ∧
      readU32 ⟨[0xff, 0xff, 0xff, 0xff, 0x1f], 0⟩ = .ok 4294967295 ⟨[], 5⟩ ∧
      ¬ u32.Keeps ⟨[0xff, 0xff, 0xff, 0xff, 0x1f], 0⟩ := by
  have hread : readU32 ⟨[0xff, 0xff, 0xff, 0xff, 0x1f], 0⟩ = .ok 4294967295 ⟨[], 5⟩ := by rfl
  refine ⟨by decide, hread, fun hkeeps => ?_⟩
  have hdigits : Digits [0xff, 0xff, 0xff, 0xff, 0x1f] :=
    .more (by decide) (.more (by decide) (.more (by decide) (.more (by decide) (.last (by decide)))))
  obtain ⟨fault, d, hfault, -⟩ :=
    hkeeps.refused _ ⟨[], 5⟩ hdigits ⟨rfl, rfl⟩ (by decide)
  cases hfault.symm.trans hread

end Width

end Leb128

end HostCatch
