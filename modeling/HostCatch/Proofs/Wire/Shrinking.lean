import HostCatch.Proofs.Wire.Segments

namespace HostCatch

open List

namespace Leb128

theorem signed_length_le {v : Int} {k : Nat} (hlow : -(64 * 128 ^ k) ≤ v) (hhigh : v < 64 * 128 ^ k) :
    (signed v).length ≤ k + 1 := by
  induction k generalizing v with
  | zero =>
    rw [signed, if_pos (by simpa using ⟨hlow, hhigh⟩)]
    simp
  | succ k ih =>
    rw [signed]
    split
    next => simp
    next =>
      rw [Int.pow_succ] at hlow hhigh
      exact Nat.succ_le_succ (ih (by omega) (by omega))

theorem value_lt (bs : Bytes) : value bs < 128 ^ bs.length := by
  induction bs with
  | nil => simp [value]
  | cons b bs ih =>
    have hmod : b.toNat % 128 < 128 := Nat.mod_lt _ (by decide)
    rw [value, length_cons, Nat.pow_succ]
    omega

theorem value_getLastD {b : UInt8} {bs : Bytes} :
    0x40 ≤ (b :: bs).getLastD 0 % 128 ↔ 64 * 128 ^ bs.length ≤ value (b :: bs) := by
  induction bs generalizing b with
  | nil =>
    rw [getLastD_cons, getLastD_nil, UInt8.le_iff_toNat_le, UInt8.toNat_mod]
    simp [value]
  | cons b' bs ih =>
    have hmod : b.toNat % 128 < 128 := Nat.mod_lt _ (by decide)
    have hlast : (b :: b' :: bs).getLastD 0 = (b' :: bs).getLastD 0 := by simp
    have hvalue : value (b :: b' :: bs) = b.toNat % 128 + 128 * value (b' :: bs) := rfl
    rw [hlast, ih, hvalue, length_cons, Nat.pow_succ]
    omega

/-- Groups that do not fill 64 bits hold a number of their width. -/
theorem signedValue_bounds {b : UInt8} {bs : Bytes} (h : 7 * (b :: bs).length < 64) :
    -(64 * 128 ^ bs.length) ≤ signedValue (b :: bs) ∧ signedValue (b :: bs) < 64 * 128 ^ bs.length := by
  have hpow : (1 <<< (7 * (b :: bs).length) : Nat) = 128 * 128 ^ bs.length := by
    rw [Nat.one_shiftLeft, Nat.pow_mul, length_cons, ← Nat.pow_succ']
  have hlt := value_lt (b :: bs)
  rw [length_cons, Nat.pow_succ] at hlt
  have hcast : (128 : Int) ^ bs.length = (128 ^ bs.length : Nat) := by push_cast; rfl
  unfold signedValue
  rw [hpow, hcast]
  split
  next hneg =>
    have := value_getLastD.mp hneg.2
    constructor <;> omega
  next hpos =>
    have := mt value_getLastD.mpr fun hlast => hpos ⟨h, hlast⟩
    constructor <;> omega

end Leb128

namespace Reader

variable {α β : Type}

/-- What is written for a result is no longer than what the reader took. -/
def Shrinks (p : Reader α) (write : α → Bytes) : Prop :=
  ∀ c a c', p c = .ok a c' → (write a).length + c'.rest.length ≤ c.rest.length

namespace Shrinks

variable {p : Reader α} {f : α → Reader β} {write : β → Bytes}

theorem done {b : β} (h : (write b).length = 0) : Shrinks (pure b) write := by
  intro c a c' hread
  cases hread
  rw [h, Nat.zero_add]

theorem failed {e : ReadFault} : Shrinks (throw e) write :=
  fun _ _ _ h => absurd h throw_ne_ok

/-- Behind what the first step took, the others have the rest to take. -/
theorem bind {first : α → Bytes} (hp : Shrinks p first)
    (hf : ∀ a, Shrinks (f a) fun b => (write b).drop (first a).length) : Shrinks (p >>= f) write := by
  intro c b c' h
  obtain ⟨a, d, ha, hb⟩ := of_bind h
  have hfirst := hp _ _ _ ha
  have hrest := hf a _ _ _ hb
  rw [length_drop] at hrest
  omega

theorem map {g : α → β} (hp : Shrinks p fun a => write (g a)) : Shrinks (g <$> p) write := by
  intro c b c' h
  obtain ⟨a, ha, rfl⟩ := map_eq_ok_iff.mp h
  exact hp _ _ _ ha

theorem mono {more : α → Bytes} (hp : Shrinks p more) {less : α → Bytes}
    (h : ∀ a, (less a).length ≤ (more a).length) : Shrinks p less :=
  fun _ a _ ha => Nat.le_trans (Nat.add_le_add_right (h a) _) (hp _ _ _ ha)

theorem branch {P : Prop} [Decidable P] {q r : Reader β} (hq : P → Shrinks q write)
    (hr : ¬ P → Shrinks r write) : Shrinks (if P then q else r) write := by
  split
  next h => exact hq h
  next h => exact hr h

theorem refuse {P : Prop} [Decidable P] {e : ReadFault} {q : Reader β} (hq : ¬ P → Shrinks q write) :
    Shrinks (if P then throw e >>= f else q) write :=
  branch (fun _ _ _ _ h => by
    obtain ⟨_, _, hthrow, -⟩ := of_bind h
    exact absurd hthrow throw_ne_ok) hq

end Shrinks

variable {c c' : Cursor} {n : Nat} {w : Bytes} {p : Reader α} {write : α → Bytes}

theorem byte_length {b : UInt8} (h : byte c = .ok b c') : 1 + c'.rest.length = c.rest.length := by
  obtain ⟨rest, pos⟩ := c
  cases rest with
  | nil => cases h
  | cons b rest =>
    cases h
    simp [Nat.add_comm]

theorem bytes_length (h : bytes n c = .ok w c') : w.length + c'.rest.length = c.rest.length := by
  unfold bytes at h
  split at h
  next hle =>
    cases h
    simp only [length_take, length_drop]
    omega
  next => cases h

theorem groups_length {more : Nat} (h : Leb128.groups more c = .ok w c') :
    0 < w.length ∧ w.length ≤ more + 1 ∧ w.length + c'.rest.length = c.rest.length := by
  induction more generalizing c c' w with
  | zero =>
    obtain ⟨b, d, hb, h⟩ := of_bind h
    have := byte_length hb
    split at h
    next =>
      cases h
      exact ⟨by simp, by simp, this⟩
    next => exact absurd h throw_ne_ok
  | succ more ih =>
    obtain ⟨b, d, hb, h⟩ := of_bind h
    have := byte_length hb
    split at h
    next =>
      cases h
      exact ⟨by simp, by simp, this⟩
    next =>
      obtain ⟨bs, e, hbs, h⟩ := of_bind h
      cases h
      obtain ⟨-, hle, heq⟩ := ih hbs
      simp only [length_cons]
      omega

theorem placingOverflow_eq_ok {a : α} (h : placingOverflow p c = .ok a c') : p c = .ok a c' := by
  unfold placingOverflow at h
  split at h
  next => cases h
  next => exact h

/-- A number takes the groups that a smaller one needs, or more. -/
theorem readUnsigned_length {bits : Nat} {v : UInt64} (h : Leb128.readUnsigned bits c = .ok v c')
    (hn : n ≤ v.toNat) : (Leb128.unsigned n).length + c'.rest.length ≤ c.rest.length := by
  obtain ⟨w, d, hw, h⟩ := of_bind h
  cases h
  obtain ⟨hpos, -, hlength⟩ := groups_length hw
  have hvalue : n < 128 ^ (w.length - 1 + 1) := by
    rw [Nat.sub_add_cancel hpos]
    refine Nat.lt_of_le_of_lt (Nat.le_trans hn ?_) (Leb128.value_lt w)
    rw [UInt64.toNat_ofNat']
    exact Nat.mod_le _ _
  have := Leb128.unsigned_length_le hvalue
  omega

theorem readU32_length {v : UInt32} (h : Leb128.readU32 c = .ok v c') (hn : n ≤ v.toNat) :
    (Wire.size n).length + c'.rest.length ≤ c.rest.length := by
  obtain ⟨w, d, hw, h⟩ := of_bind h
  cases h
  have hle : w.toUInt32.toNat ≤ w.toNat := by
    rw [UInt64.toNat_toUInt32]
    exact Nat.mod_le _ _
  have hsize : (UInt32.ofNat n).toNat = n :=
    toNat_ofNat_size (Nat.lt_of_le_of_lt hn (UInt32.toNat_lt _))
  rw [Wire.size, Leb128.u32, hsize]
  exact readUnsigned_length hw (Nat.le_trans hn hle)

theorem u32_length {v : UInt32} (h : u32 c = .ok v c') (hn : n ≤ v.toNat) :
    (Wire.size n).length + c'.rest.length ≤ c.rest.length :=
  readU32_length (placingOverflow_eq_ok h) hn

theorem readU32_shrinks : Shrinks Leb128.readU32 Leb128.u32 := by
  intro c v c' h
  have hlength := readU32_length h (Nat.le_refl _)
  rwa [Wire.size, UInt32.ofNat_toNat] at hlength

theorem u32_shrinks : Shrinks u32 Leb128.u32 :=
  fun _ _ _ h => readU32_shrinks _ _ _ (placingOverflow_eq_ok h)

theorem readU64_shrinks : Shrinks Leb128.readU64 Leb128.u64 :=
  fun _ _ _ h => readUnsigned_length h (Nat.le_refl _)

theorem u64_shrinks : Shrinks u64 Leb128.u64 :=
  fun _ _ _ h => readU64_shrinks _ _ _ (placingOverflow_eq_ok h)

/-- Up to ten groups hold a number of 64 bits, of which ten drop those beyond. -/
theorem readSigned_shrinks {bits : Nat} (hbits : Leb128.width bits ≤ 9) :
    Shrinks (Leb128.readSigned bits) Leb128.s64 := by
  intro c v c' h
  obtain ⟨w, d, hw, h⟩ := of_bind h
  cases h
  obtain ⟨hpos, hle, hlength⟩ := groups_length hw
  cases w with
  | nil => cases hpos
  | cons b bs =>
    have hfits : (Leb128.s64 (Int64.ofInt (Leb128.signedValue (b :: bs)))).length ≤ bs.length + 1 := by
      by_cases hfull : 7 * (b :: bs).length < 64
      · obtain ⟨hlow, hhigh⟩ := Leb128.signedValue_bounds hfull
        have hle : bs.length ≤ 8 := by
          simp only [length_cons] at hfull
          omega
        have hpow : (128 : Int) ^ bs.length ≤ 128 ^ 8 := by
          exact_mod_cast Nat.pow_le_pow_right (by decide : 0 < 128) hle
        have hexact : (Int64.ofInt (Leb128.signedValue (b :: bs))).toInt =
            Leb128.signedValue (b :: bs) := Int64.toInt_ofInt_of_le (by omega) (by omega)
        rw [Leb128.s64, hexact]
        exact Leb128.signed_length_le hlow hhigh
      · obtain hten : bs.length = 9 := by
          simp only [length_cons] at hfull hle
          omega
        rw [hten]
        have hlow := (Int64.ofInt (Leb128.signedValue (b :: bs))).le_toInt
        have hhigh := (Int64.ofInt (Leb128.signedValue (b :: bs))).toInt_lt
        exact Leb128.signed_length_le (by omega) (by omega)
    rw [length_cons] at hlength
    omega

theorem readS64_shrinks : Shrinks Leb128.readS64 Leb128.s64 :=
  readSigned_shrinks (Nat.le_refl 9)

theorem times_shrinks (hp : Shrinks p write) (n : Nat) :
    Shrinks (times p n) (List.flatMap write) := by
  intro c as c' h
  induction n generalizing c as with
  | zero =>
    cases h
    simp
  | succ n ih =>
    obtain ⟨a, d, ha, h⟩ := of_bind h
    obtain ⟨as, e, has, h⟩ := of_bind h
    cases h
    have hfirst := hp _ _ _ ha
    have hrest := ih _ _ has
    simp only [flatMap_cons, length_append]
    omega

theorem list_shrinks (hp : Shrinks p write) : Shrinks (list p) (Wire.list write) := by
  intro c as c' h
  obtain ⟨n, d, hn, h⟩ := of_bind h
  have hcount := u32_length hn (Nat.le_of_eq (times_eq_ok h).1)
  have hentries := times_shrinks hp n.toNat _ _ _ h
  simp only [Wire.list, length_append]
  omega

theorem Shrinks.ite {P : Prop} [Decidable P] (hp : Shrinks p write) (otherwise : α) :
    Shrinks (if P then p else pure otherwise) fun a => if P then write a else [] :=
  .branch (fun h => hp.mono fun _ => by rw [if_pos h]) fun h => .done (by rw [if_neg h]; rfl)

theorem byte_shrinks : Shrinks byte fun b => [b] :=
  fun _ _ _ h => Nat.le_of_eq (byte_length h)

theorem bytes_shrinks (n : Nat) : Shrinks (bytes n) id :=
  fun _ _ _ h => Nat.le_of_eq (bytes_length h)

theorem utf8_of_utf8Text? {s : String} (h : utf8Text? w = some s) : utf8 s = w := by
  unfold utf8Text? String.fromUTF8? at h
  split at h
  next =>
    cases h
    rfl
  next => cases h

theorem Shrinks.sized {f : Bytes → Reader α}
    (hf : ∀ w, Shrinks (f w) fun a => (write a).drop (Wire.size w.length ++ w).length) :
    Shrinks (u32 >>= fun n => bytes n.toNat >>= f) write := by
  rw [← bind_assoc]
  refine Shrinks.bind (fun c w c' h => ?_) hf
  obtain ⟨n, d, hn, hw⟩ := of_bind h
  have hn := u32_length hn (Nat.le_of_eq (bytes_eq_ok hw))
  have hw := bytes_length hw
  rw [length_append]
  omega

theorem name_shrinks : Shrinks name Wire.name := by
  refine .sized fun w => ?_
  cases hs : utf8Text? w with
  | none => exact fun _ _ _ h => by cases h
  | some text => exact .done (by simp [Wire.name, utf8_of_utf8Text? hs])

section Types

open Wire

theorem refAfter_shrinks (code : TypeCode) :
    Shrinks (refAfter code) fun ref => (refOrCode code ref).drop 1 :=
  .branch (fun _ => readS64_shrinks.bind fun heap => .done (by simp [refOrCode, refType]))
    fun _ => .done rfl

theorem extAfter_shrinks (code : TypeCode) :
    Shrinks (extAfter code) fun ext => (typeOrCode code ext).drop 1 := by
  refine (refAfter_shrinks code).bind fun ref => .done ?_
  have hwritten : typeOrCode code (ref.map (.ref code)) = refOrCode code ref := by cases ref <;> rfl
  simp only [hwritten, length_drop]
  omega

theorem extType_shrinks : Shrinks extType Wire.extType := by
  refine byte_shrinks.bind fun code => (extAfter_shrinks code).bind fun ext => .done ?_
  have hwritten : (Wire.extType (ext.getD (.plain code))).length ≤ (typeOrCode code ext).length := by
    rcases ext with _ | _ | _ <;> exact Nat.le_refl _
  simp only [length_drop, length_singleton]
  omega

end Types

section Entities

open Wire

theorem limits_shrinks : Shrinks limits Wire.limits := by
  refine byte_shrinks.bind fun flags => ?_
  dsimp only
  generalize decide (flags &&& 0x04 ≠ 0) = wide
  have hbound : Shrinks (if wide then u64 else UInt32.toUInt64 <$> u32)
      fun n => if wide then Leb128.u64 n else Leb128.u32 n.toUInt32 := by
    cases wide with
    | true => exact u64_shrinks
    | false => exact .map (by simpa using u32_shrinks)
  refine hbound.bind fun min => .branch (fun _ => ?_) fun _ => .done (by simp [Wire.limits])
  have hmax : Shrinks (some <$> if wide then u64 else UInt32.toUInt64 <$> u32) fun max =>
      (max.map fun n => if wide then Leb128.u64 n else Leb128.u32 n.toUInt32).getD [] := .map hbound
  refine hmax.bind fun max => ?_
  cases max with
  | none => exact .done (by simp [Wire.limits])
  | some most => exact .refuse fun _ => .done (by simp [Wire.limits])

theorem rawGroups_length (h : rawGroups c = .ok w c') :
    w.length + c'.rest.length = c.rest.length := by
  have hspan := takeWhile_append_dropWhile (p := (0x80 ≤ ·)) (l := c.rest)
  unfold rawGroups at h
  simp only [span_eq_takeWhile_dropWhile] at h
  split at h
  next => cases h
  next last rest hrest =>
    cases h
    have hlength := congrArg List.length hspan
    rw [hrest] at hlength
    simpa [Nat.add_assoc, Nat.add_comm 1] using hlength

theorem rawGroups_shrinks : Shrinks rawGroups id :=
  fun _ _ _ h => Nat.le_of_eq (rawGroups_length h)

theorem constImm_shrinks (op : UInt8) : Shrinks (constImm op) id := by
  refine .branch (fun _ => rawGroups_shrinks) fun _ => ?_
  refine .branch (fun _ => bytes_shrinks 4) fun _ => ?_
  refine .branch (fun _ => bytes_shrinks 8) fun _ => ?_
  refine .branch (fun _ => u32_shrinks.bind fun sub => ?_) fun _ => ?_
  · refine .branch (fun _ => (bytes_shrinks 16).bind fun operand => .done ?_) fun _ => .done ?_
    all_goals simp
  refine .branch (fun _ => u32_shrinks.bind fun sub => ?_) fun _ => .done rfl
  exact (times_shrinks rawGroups_shrinks _).bind fun operands => .done (by simp [flatMap_id])

theorem constExprWithin_shrinks (bound : Nat) : Shrinks (constExprWithin bound) id := by
  induction bound with
  | zero => exact .failed
  | succ bound ih =>
    refine byte_shrinks.bind fun op => .branch (fun _ => .done rfl) fun _ => ?_
    exact (constImm_shrinks op).bind fun imm => ih.bind fun rest => .done (by simp)

theorem constExpr_shrinks : Shrinks constExpr id :=
  fun c w c' h => constExprWithin_shrinks c.rest.length c w c' h

theorem tableType_shrinks : Shrinks tableType Wire.tableType := by
  refine byte_shrinks.bind fun first => .branch (fun _ => ?_) fun _ => ?_
  · refine byte_shrinks.bind fun zero => .refuse fun _ => byte_shrinks.bind fun elem => ?_
    refine (refAfter_shrinks elem).bind fun ref => limits_shrinks.bind fun bounds => ?_
    refine constExpr_shrinks.bind fun init => .done ?_
    unfold Wire.tableType
    split
    all_goals
      simp only [id_eq, length_drop, length_append, length_cons, length_nil]
      omega
  · refine (refAfter_shrinks first).bind fun ref => limits_shrinks.bind fun bounds => .done ?_
    simp only [Wire.tableType, ↓reduceIte, length_drop, length_append, length_singleton]
    omega

theorem globalType_shrinks : Shrinks globalType Wire.globalType := by
  refine byte_shrinks.bind fun val => (extAfter_shrinks val).bind fun ext => ?_
  refine byte_shrinks.bind fun mutable => .done ?_
  simp only [Wire.globalType, flag, length_drop, length_append, length_singleton]
  omega

theorem tagType_shrinks : Shrinks tagType Wire.tagType :=
  byte_shrinks.bind fun attr => u32_shrinks.bind fun type => .done (by simp [Wire.tagType])

theorem importDesc_shrinks (kind : UInt8) :
    Shrinks (importDesc kind) fun d => (Wire.importDesc d).drop 1 := by
  refine .branch (fun _ => .map u32_shrinks) fun _ => ?_
  refine .branch (fun _ => .map tableType_shrinks) fun _ => ?_
  refine .branch (fun _ => .map limits_shrinks) fun _ => ?_
  refine .branch (fun _ => .map globalType_shrinks) fun _ => ?_
  exact .branch (fun _ => .map tagType_shrinks) fun _ => .failed

theorem importEntry_shrinks : Shrinks importEntry Wire.importEntry := by
  refine name_shrinks.bind fun module => name_shrinks.bind fun name => ?_
  refine byte_shrinks.bind fun kind => (importDesc_shrinks kind).bind fun desc => .done ?_
  simp only [Wire.importEntry, length_drop, length_append, length_singleton]
  omega

theorem exportEntry_shrinks : Shrinks exportEntry Wire.exportEntry := by
  refine name_shrinks.bind fun name => byte_shrinks.bind fun kind => .refuse fun _ => ?_
  exact u32_shrinks.bind fun index => .done (by simp [Wire.exportEntry])

theorem globalEntry_shrinks : Shrinks globalEntry Wire.globalEntry :=
  globalType_shrinks.bind fun type => constExpr_shrinks.bind fun init => .done
    (by simp [Wire.globalEntry])

end Entities

section Segments

open Wire

/-- An element segment is written no longer than it was. -/
theorem elementAfter_length {flags : UInt32} {placed active typed listed : Bool} {e : Element}
    (h : elementAfter flags placed active typed listed c = .ok e c') :
    ((if placed then Leb128.u32 e.table else []) ++ (if active then e.offset else []) ++
      (if typed then if listed then refOrCode e.type e.ref else [e.elemKind] else []) ++
      (if listed then Wire.list id e.exprs else Wire.list Leb128.u32 e.funcs)).length +
      c'.rest.length ≤ c.rest.length := by
  obtain ⟨table, d₁, htable, h⟩ := of_bind h
  obtain ⟨offset, d₂, hoffset, h⟩ := of_bind h
  obtain ⟨elemKind, d₃, hkind, h⟩ := of_bind h
  obtain ⟨type, d₄, htype, h⟩ := of_bind h
  obtain ⟨ref, d₅, href, h⟩ := of_bind h
  obtain ⟨n, d₆, hn, h⟩ := of_bind h
  obtain ⟨funcs, d₇, hfuncs, h⟩ := of_bind h
  obtain ⟨exprs, d₈, hexprs, h⟩ := of_bind h
  obtain ⟨rfl, rfl⟩ := pure_eq_ok_iff.mp h
  have htable := u32_shrinks.ite 0 _ _ _ htable
  have hoffset := constExpr_shrinks.ite [] _ _ _ hoffset
  have htyped : (if typed then if listed then refOrCode type ref else [elemKind] else []).length +
      d₅.rest.length ≤ d₂.rest.length := by
    have hkind := byte_shrinks.ite 0 _ _ _ hkind
    have htype := byte_shrinks.ite 0 _ _ _ htype
    cases typed with
    | false =>
      obtain ⟨-, rfl⟩ := pure_eq_ok_iff.mp href
      simp at hkind htype ⊢
      omega
    | true =>
      cases listed with
      | false =>
        obtain ⟨-, rfl⟩ := pure_eq_ok_iff.mp href
        simp at hkind htype ⊢
        omega
      | true =>
        have href := refAfter_shrinks type _ _ _ href
        simp at hkind htype href ⊢
        omega
  have hentries : (if listed then Wire.list id exprs else Wire.list Leb128.u32 funcs).length +
      d₈.rest.length ≤ d₅.rest.length := by
    cases listed with
    | false =>
      obtain ⟨-, rfl⟩ := pure_eq_ok_iff.mp hexprs
      exact list_shrinks u32_shrinks _ _ _ (bind_eq_ok_iff.mpr ⟨n, d₆, hn, hfuncs⟩)
    | true =>
      obtain ⟨-, rfl⟩ := pure_eq_ok_iff.mp hfuncs
      exact list_shrinks constExpr_shrinks _ _ _ (bind_eq_ok_iff.mpr ⟨n, d₆, hn, hexprs⟩)
  simp only [id_eq, length_append] at htable hoffset ⊢
  omega

theorem element_shrinks : Shrinks element Wire.element := by
  intro c e c' h
  rw [element_eq] at h
  obtain ⟨flags, d, hflags, h⟩ := of_bind h
  split at h
  next => exact absurd h throw_ne_ok
  next =>
    have hflags := u32_shrinks _ _ _ hflags
    obtain ⟨rfl, -⟩ := elementAfter_eq_ok h
    replace h : elementAfter e.flags e.hasTable e.isActive e.hasType e.hasExprs d = .ok e c' := h
    have hrest := elementAfter_length h
    simp only [Wire.element, length_append] at hrest ⊢
    omega

theorem localEntry_shrinks : Shrinks localEntry Wire.localEntry := by
  refine u32_shrinks.bind fun count => byte_shrinks.bind fun val => ?_
  refine (extAfter_shrinks val).bind fun ext => .done ?_
  simp only [Wire.localEntry, length_drop, length_append, length_singleton]
  omega

theorem funcBody_length {b : FuncBody} (h : funcBody c = .ok b c') :
    (Wire.list Wire.localEntry b.locals ++ b.code).length < 2 ^ 32 ∧
      (Wire.funcBody b).length + c'.rest.length ≤ c.rest.length := by
  obtain ⟨n, d, hn, h⟩ := of_bind h
  obtain ⟨data, e, hdata, h⟩ := of_bind h
  obtain ⟨rfl, f, hb⟩ := inside_eq_ok h
  obtain ⟨locals, g, hlocals, hb⟩ := of_bind hb
  obtain ⟨code, f, hcode, hb⟩ := of_bind hb
  cases hb
  cases hcode
  have hlocals := list_shrinks localEntry_shrinks _ _ _ hlocals
  have hbody : (Wire.list Wire.localEntry locals ++ g.rest).length ≤ n.toNat := by
    rw [length_append, ← bytes_eq_ok hdata]
    exact hlocals
  have hn := u32_length hn hbody
  refine ⟨Nat.lt_of_le_of_lt hbody (UInt32.toNat_lt n), ?_⟩
  rw [← bytes_eq_ok hdata] at hbody
  have hdata := bytes_length hdata
  simp only [Wire.funcBody, length_append] at hn hbody ⊢
  omega

theorem funcBody_shrinks : Shrinks funcBody Wire.funcBody :=
  fun _ _ _ h => (funcBody_length h).2

theorem dataSegment_shrinks : Shrinks dataSegment Wire.dataSegment := by
  rw [dataSegment_eq]
  refine u32_shrinks.bind fun flags => .branch (fun _ => .failed) fun _ => ?_
  refine (u32_shrinks.ite 0).bind fun mem => (constExpr_shrinks.ite []).bind fun offset => ?_
  refine .sized fun init => .done ?_
  simp only [Wire.dataSegment, id_eq, length_drop, length_append, ite_not]
  omega

theorem custom_length {data : Bytes} {c : Custom} (h : custom ⟨data, 0⟩ = .ok c c') :
    (Wire.custom c).length ≤ data.length := by
  obtain ⟨name, d, hname, h⟩ := of_bind h
  obtain ⟨rest, e, hrest, h⟩ := of_bind h
  cases h
  have hname := name_shrinks _ _ _ hname
  cases hrest
  simp only [Wire.custom, length_append]
  omega

end Segments

end Reader

end HostCatch
