import HostCatch.Proofs.Wire.ConstExpr
import HostCatch.Proofs.Wire.Segments
import HostCatch.Proofs.Wire.Width

namespace HostCatch

open List Wire Reader Leb128

namespace Reader

variable {α β : Type}

/-- Whether the reader takes just these bytes, whatever follows, is a matter of `ok`; what it gives then
has a property. -/
structure Decides (p : Reader α) (w : Bytes) (ok : Prop) (P : α → Prop) : Prop where
  taken : ok → ∃ a, P a ∧ Spells p w a
  refused : ¬ ok → ∀ rest pos, ∃ fault c, p ⟨w ++ rest, pos⟩ = .error fault c

theorem bind_error {p : Reader α} {f : α → Reader β} {c d : Cursor} {fault : ReadFault}
    (h : p c = .error fault d) : (p >>= f) c = .error fault d := by
  change EStateM.bind p f c = _
  rw [EStateM.bind, h]

namespace Decides

variable {p : Reader α} {v w : Bytes} {ok ok' : Prop} {P : α → Prop} {Q : β → Prop}

theorem of_spells {a : α} (h : Spells p w a) (ha : P a) : Decides p w True P :=
  ⟨fun _ => ⟨a, ha, h⟩, fun hnot => absurd trivial hnot⟩

theorem bind {f : α → Reader β} (hp : Decides p v ok P) (hf : ∀ a, P a → Decides (f a) w ok' Q) :
    Decides (p >>= f) (v ++ w) (ok ∧ ok') Q where
  taken := by
    rintro ⟨hok, hok'⟩
    obtain ⟨a, ha, hspells⟩ := hp.taken hok
    obtain ⟨b, hb, hrest⟩ := (hf a ha).taken hok'
    exact ⟨b, hb, hspells.bind hrest⟩
  refused := by
    intro hnot rest pos
    rw [append_assoc]
    by_cases hok : ok
    · obtain ⟨a, ha, hspells⟩ := hp.taken hok
      rw [bind_of_eq_ok (hspells (w ++ rest) pos)]
      exact (hf a ha).refused (fun hok' => hnot ⟨hok, hok'⟩) _ _
    · obtain ⟨fault, c, hfault⟩ := hp.refused hok (w ++ rest) pos
      exact ⟨fault, c, bind_error hfault⟩

theorem congr (h : Decides p w ok P) (hiff : ok ↔ ok') : Decides p w ok' P :=
  ⟨fun hok => h.taken (hiff.mpr hok), fun hnot => h.refused fun hok => hnot (hiff.mp hok)⟩

theorem bind_pure {f : α → β} (hp : Decides p w ok P) (hf : ∀ a, P a → Q (f a)) :
    Decides (p >>= fun a => pure (f a)) w ok Q := by
  have h := hp.bind fun a ha => of_spells (.done (f a)) (hf a ha)
  rw [append_nil] at h
  exact h.congr (and_iff_left trivial)

theorem map {f : α → β} (hp : Decides p w ok P) (hf : ∀ a, P a → Q (f a)) :
    Decides (f <$> p) w ok Q := by
  rw [map_eq_pure_bind]
  exact hp.bind_pure hf

end Decides

end Reader

namespace Leb128

variable {ds : Bytes}

theorem Digits.groups (h : Digits ds) (more : Nat) :
    Decides (Leb128.groups more) ds (ds.length ≤ more + 1) fun _ => True where
  taken := fun hlength => ⟨ds, trivial, fun _ _ => groups_eq_ok_iff.mpr ⟨h, hlength, rfl, rfl⟩⟩
  refused := by
    intro hlong rest pos
    have hlt : more + 1 < ds.length := Nat.lt_of_not_le hlong
    have hcut : ds ++ rest = ds.take (more + 1) ++ (ds.drop (more + 1) ++ rest) := by
      rw [← append_assoc, take_append_drop]
    obtain ⟨c, hc⟩ := groups_overflow (c := ⟨ds ++ rest, pos⟩)
      (by rw [length_take, Nat.min_eq_left (Nat.le_of_lt hlt)]) (h.not_lt hlt) hcut
    exact ⟨_, c, hc⟩

theorem Digits.readU32 (h : Digits ds) : Decides Leb128.readU32 ds (ds.length ≤ 5) fun _ => True :=
  ((h.groups 4).bind_pure (Q := fun _ => True) fun _ _ => trivial).bind_pure fun _ _ => trivial

theorem Digits.readS32 (h : Digits ds) : Decides Leb128.readS32 ds (ds.length ≤ 5) fun _ => True :=
  ((h.groups 4).bind_pure (Q := fun _ => True) fun _ _ => trivial).bind_pure fun _ _ => trivial

theorem Digits.readS64 (h : Digits ds) : Decides Leb128.readS64 ds (ds.length ≤ 10) fun _ => True :=
  (h.groups 9).bind_pure fun _ _ => trivial

end Leb128

namespace Reader

variable {c c' : Cursor}

theorem rawGroups_digits {w : Bytes} (h : rawGroups c = .ok w c') : Digits w := by
  obtain ⟨more, last, rfl, hmore, hlast⟩ := rawGroups_split h
  clear h
  induction more with
  | nil => exact .last (UInt8.not_le.mp hlast)
  | cons b more ih =>
    obtain ⟨hb, hmore⟩ := forall_mem_cons.mp hmore
    exact .more (UInt8.not_lt.mpr hb) (ih hmore)

/-- What a scan of a constant expression meets at an instruction: its opcode, a second opcode where there
is one, and behind it numbers and other bytes as they stand. -/
structure Scanned where
  op : UInt8
  sub : Option UInt32 := none
  numbers : List Bytes := []
  literal : Bytes := []

/-- What is kept of an instruction. -/
def Scanned.bytes (s : Scanned) : Bytes :=
  s.op :: ((s.sub.map Leb128.u32).getD [] ++ s.numbers.flatten ++ s.literal)

/-- What stands behind an opcode. -/
def scanned (op : UInt8) : Reader Scanned :=
  if op ∈ [0x41, 0x42, 0x23, 0xD0, 0xD2] then do
    let number ← rawGroups
    pure { op, numbers := [number] }
  else if op = 0x43 then do
    let literal ← bytes 4
    pure { op, literal }
  else if op = 0x44 then do
    let literal ← bytes 8
    pure { op, literal }
  else if op = 0xFD then do
    let sub ← u32
    let literal ← if sub = 0x0C then bytes 16 else pure []
    pure { op, sub := some sub, literal }
  else if op = 0xFB then do
    let sub ← u32
    let numbers ← times rawGroups (constGcOperands sub)
    pure { op, sub := some sub, numbers }
  else pure { op }

/-- The opcodes with one number behind them. -/
def numberOpcodes : List UInt8 :=
  [0x41, 0x42, 0x23, 0xD0, 0xD2]

/-- What a scan can meet, by the family of the opcode. -/
inductive Scanned.Laid : Scanned → Prop
  | number {op : UInt8} {number : Bytes} : op ∈ numberOpcodes → Digits number →
      Laid { op, numbers := [number] }
  | f32 {literal : Bytes} : literal.length = 4 → Laid { op := 0x43, literal }
  | f64 {literal : Bytes} : literal.length = 8 → Laid { op := 0x44, literal }
  | simd {sub : UInt32} {literal : Bytes} : (sub = 0x0C → literal.length = 16) →
      Laid { op := 0xFD, sub := some sub, literal }
  | gc {sub : UInt32} {numbers : List Bytes} : numbers.length = constGcOperands sub →
      (∀ number ∈ numbers, Digits number) → Laid { op := 0xFB, sub := some sub, numbers }
  | bare {op : UInt8} : op ∉ numberOpcodes → op ∉ [0x43, 0x44] → op ∉ [0xFD, 0xFB] → Laid { op }

/-- What the scanner skips has one of these layouts. -/
theorem scanned_laid {op : UInt8} {s : Scanned} (h : scanned op c = .ok s c') : s.Laid := by
  unfold scanned at h
  split at h
  next hop =>
    obtain ⟨number, d, hnumber, h⟩ := of_bind h
    cases h
    exact .number hop (rawGroups_digits hnumber)
  next hnumber =>
  split at h
  next hop =>
    obtain ⟨literal, d, hliteral, h⟩ := of_bind h
    cases h
    exact hop ▸ .f32 (bytes_eq_ok hliteral)
  next hf32 =>
  split at h
  next hop =>
    obtain ⟨literal, d, hliteral, h⟩ := of_bind h
    cases h
    exact hop ▸ .f64 (bytes_eq_ok hliteral)
  next hf64 =>
  split at h
  next hop =>
    obtain ⟨sub, d, -, h⟩ := of_bind h
    dsimp only at h
    rw [ite_bind] at h
    obtain ⟨literal, e, hliteral, h⟩ := of_bind h
    cases h
    refine hop ▸ .simd fun hsub => ?_
    rw [if_pos hsub] at hliteral
    exact bytes_eq_ok hliteral
  next hsimd =>
  split at h
  next hop =>
    obtain ⟨sub, d, -, h⟩ := of_bind h
    obtain ⟨numbers, e, hnumbers, h⟩ := of_bind h
    cases h
    obtain ⟨hcount, hall⟩ := times_eq_ok hnumbers
    refine hop ▸ .gc hcount fun number hnumber => ?_
    obtain ⟨f, g, hfg⟩ := hall number hnumber
    exact rawGroups_digits hfg
  next hgc =>
    cases h
    exact .bare hnumber (by simp [hf32, hf64]) (by simp [hsimd, hgc])

/-- The instructions up to an `end`, at most `bound` of them with it. -/
def scanWithin : Nat → Reader (List Scanned)
  | 0 => throw .endOfInput
  | bound + 1 => do
    let op ← byte
    if op = 0x0B then pure []
    else
      let first ← scanned op
      let rest ← scanWithin bound
      pure (first :: rest)

/-- The instructions of a constant expression before its `end`. -/
def scan : Reader (List Scanned) := fun c =>
  scanWithin c.rest.length c

theorem constImm_eq_scanned (op : UInt8) :
    (op :: ·) <$> constImm op = Scanned.bytes <$> scanned op := by
  unfold constImm scanned
  split
  next => simp [Scanned.bytes]
  split
  next => simp [Scanned.bytes]
  split
  next => simp [Scanned.bytes]
  split
  next =>
    simp only [map_bind]
    refine bind_congr fun sub => ?_
    split <;> simp [Scanned.bytes]
  split
  next => simp [Scanned.bytes]
  next => simp [Scanned.bytes]

theorem constExprWithin_eq_scan (bound : Nat) : constExprWithin bound =
    (fun ps => ps.flatMap Scanned.bytes ++ [0x0B]) <$> scanWithin bound := by
  induction bound with
  | zero => rfl
  | succ bound ih =>
    rw [constExprWithin, scanWithin, map_bind]
    refine bind_congr fun op => ?_
    split
    next hop =>
      subst hop
      rfl
    next =>
      have hfirst := constImm_eq_scanned op
      calc (constImm op >>= fun imm => constExprWithin bound >>= fun rest => pure (op :: (imm ++ rest)))
          = ((op :: ·) <$> constImm op) >>= fun first => (first ++ ·) <$> constExprWithin bound := by
            simp
        _ = _ := by
            rw [hfirst, ih]
            simp

theorem constExpr_eq_ok_iff {expr : Bytes} : constExpr c = .ok expr c' ↔
    ∃ ps, scan c = .ok ps c' ∧ expr = ps.flatMap Scanned.bytes ++ [0x0B] := by
  unfold constExpr
  rw [constExprWithin_eq_scan, map_eq_ok_iff]
  exact exists_congr fun ps => and_congr_right fun _ => eq_comm

end Reader

namespace Wire

/-- Sums, differences, products and logic of integers. -/
def constantOperators : List UInt8 :=
  [0x6A, 0x6B, 0x6C, 0x71, 0x72, 0x73, 0x7C, 0x7D, 0x7E, 0x83, 0x84, 0x85]

/-- The instructions of constant expressions, but for their `end`. -/
inductive Instr.Constant : Instr → Prop
  | i32 (value) : Constant ⟨0x41, .i32 value⟩
  | i64 (value) : Constant ⟨0x42, .i64 value⟩
  | f32 (bits) : Constant ⟨0x43, .f32 bits⟩
  | f64 (bits) : Constant ⟨0x44, .f64 bits⟩
  | vector {bytes : Bytes} : bytes.length = 16 → Constant ⟨0xFD, .simd { sub := 0x0C, bytes }⟩
  | globalGet (index) : Constant ⟨0x23, .globalVar index⟩
  | refNull (heap) : Constant ⟨0xD0, .refNull heap⟩
  | refFunc (func) : Constant ⟨0xD2, .refFunc func⟩
  | operator {op : UInt8} (imm) : op ∈ constantOperators → Constant ⟨op, imm⟩
  | gc {imm : GcImm} : imm.sub ∈ constantGcOpcodes → Constant ⟨0xFB, .gc imm⟩

theorem constantOperators_layout : ∀ op ∈ constantOperators,
    Layout.ofOpcode? op = some .none ∧ op ≠ 0x0B := by
  simp [constantOperators, Layout.ofOpcode?]

theorem Instr.Constant.isConstant {i : Instr} (h : i.Constant) : i.IsConstant := by
  cases h with
  | vector hlength => exact .vector hlength
  | gc hsub => exact .gc hsub
  | operator imm hop =>
    obtain ⟨hlayout, hend⟩ := constantOperators_layout _ hop
    exact .operator hlayout hend
  | _ => exact .plain (by simp [constantOpcodes])

theorem Instr.Constant.written {i : Instr} (h : i.Constant) : ∃ w, Wire.instr i = .ok w := by
  cases h with
  | @operator op imm hop =>
    refine ⟨[op], ?_⟩
    rw [Wire.instr, (constantOperators_layout op hop).1]
    rfl
  | _ => exact ⟨_, rfl⟩

theorem encodeInstrs_exists {is : List Instr} (h : ∀ i ∈ is, ∃ w, Wire.instr i = .ok w) :
    ∃ w, encodeInstrs is = .ok w := by
  induction is with
  | nil => exact ⟨[], rfl⟩
  | cons i is ih =>
    obtain ⟨⟨v, hv⟩, his⟩ := forall_mem_cons.mp h
    obtain ⟨w, hw⟩ := ih his
    exact ⟨v ++ w, by rw [encodeInstrs, hv, hw]; rfl⟩

end Wire

namespace Reader

variable {op : UInt8} {layout : Layout} {literal : Bytes} {numbers : List Bytes} {ps : List Scanned}

/-- The opcodes, second ones included, are those of constant expressions. -/
def Scanned.IsConstant (s : Scanned) : Prop :=
  s.op ∈ constantOpcodes ++ constantOperators ∨ s.op = 0xFD ∧ s.sub = some 0x0C ∨
    s.op = 0xFB ∧ ∃ sub ∈ constantGcOpcodes, s.sub = some sub

/-- The groups that the decoder takes behind an opcode: ten for 64 bits and for heap types. -/
def mostGroups (op : UInt8) : Nat :=
  if op ∈ [0x42, 0xD0] then 10 else 5

/-- No number is longer than the decoder allows. -/
def Scanned.Short (s : Scanned) : Prop :=
  ∀ number ∈ s.numbers, number.length ≤ mostGroups s.op

/-- The decoder takes an instruction as the one that was met, if its numbers are short enough. -/
def Scanned.Decodes (s : Scanned) : Prop :=
  Decides instr s.bytes s.Short fun i => i.op = s.op ∧ i.Constant

theorem Decides.instr {w : Bytes} {ok : Prop} {P : Imm → Prop} {Q : Wire.Instr → Prop}
    (hop : Layout.ofOpcode? op = some layout) (h : Decides (imm layout) w ok P)
    (hQ : ∀ i, P i → Q ⟨op, i⟩) : Decides instr (op :: w) ok Q := by
  have hbyte : Decides byte [op] True (· = op) := .of_spells (.byte op) rfl
  refine (hbyte.bind fun found hfound => ?_).congr (and_iff_right trivial)
  subst hfound
  rw [hop]
  exact h.bind_pure hQ

theorem Scanned.bytes_number (op : UInt8) (number : Bytes) :
    Scanned.bytes { op, numbers := [number] } = op :: number := by
  simp [Scanned.bytes]

theorem Scanned.bytes_literal (op : UInt8) (literal : Bytes) :
    Scanned.bytes { op, literal } = op :: literal := by
  simp [Scanned.bytes]

theorem Scanned.decodes_number {number : Bytes} (hop : Layout.ofOpcode? op = some layout)
    (h : Decides (imm layout) number (number.length ≤ mostGroups op) fun i => Instr.Constant ⟨op, i⟩) :
    Scanned.Decodes { op, numbers := [number] } := by
  unfold Scanned.Decodes Scanned.Short
  rw [Scanned.bytes_number, forall_mem_singleton]
  exact h.instr hop fun i hi => ⟨rfl, hi⟩

theorem Scanned.decodes_literal {i : Imm} (hop : Layout.ofOpcode? op = some layout)
    (h : Spells (imm layout) literal i) (hi : Instr.Constant ⟨op, i⟩) :
    Scanned.Decodes { op, literal } := by
  have hdecides : Decides (imm layout) literal True (· = i) := .of_spells h rfl
  unfold Scanned.Decodes Scanned.Short
  rw [Scanned.bytes_literal, iff_true_intro (forall_mem_nil _)]
  refine hdecides.instr hop fun j hj => ⟨rfl, ?_⟩
  exact hj ▸ hi

theorem gcImm_decides {sub : UInt32} (hsub : sub ∈ constantGcOpcodes)
    (hcount : numbers.length = constGcOperands sub) (hdigits : ∀ number ∈ numbers, Digits number) :
    Decides gcImm (Leb128.u32 sub ++ numbers.flatten) (∀ number ∈ numbers, number.length ≤ 5)
      fun i => i.sub = sub := by
  have hread : Decides Leb128.readU32 (Leb128.u32 sub) True (· = sub) :=
    .of_spells (readU32_spells sub) rfl
  have hall : Decides gcImm (Leb128.u32 sub ++ numbers.flatten)
      (True ∧ ∀ number ∈ numbers, number.length ≤ 5) fun i => i.sub = sub := by
    refine hread.bind fun found hfound => ?_
    subst hfound
    rcases constantGc_layouts found hsub with ⟨hlayout, hzero⟩ | ⟨hlayout, hone⟩ | ⟨hlayout, htwo⟩
    · obtain rfl := length_eq_zero_iff.mp (hcount.trans hzero)
      rw [hlayout, iff_true_intro (forall_mem_nil _)]
      exact .of_spells (.done _) rfl
    · obtain ⟨type, rfl⟩ := length_eq_one_iff.mp (hcount.trans hone)
      rw [forall_mem_singleton] at hdigits
      rw [hlayout, forall_mem_singleton, flatten_singleton]
      exact hdigits.readU32.bind_pure fun _ _ => rfl
    · obtain ⟨type, other, rfl⟩ := length_eq_two.mp (hcount.trans htwo)
      rw [forall_mem_cons, forall_mem_singleton] at hdigits
      obtain ⟨htype, hother⟩ := hdigits
      rw [forall_mem_cons, forall_mem_singleton, flatten_cons, flatten_singleton]
      simp only [mem_cons, not_mem_nil, or_false] at hlayout
      rcases hlayout with hlayout | hlayout | hlayout
      all_goals
        rw [hlayout]
        exact htype.readU32.bind fun _ _ => hother.readU32.bind_pure fun _ _ => rfl
  exact hall.congr (and_iff_right trivial)

theorem Scanned.decodes_gc {sub : UInt32} (hsub : sub ∈ constantGcOpcodes)
    (hcount : numbers.length = constGcOperands sub) (hdigits : ∀ number ∈ numbers, Digits number) :
    Scanned.Decodes { op := 0xFB, sub := some sub, numbers } := by
  have hbytes : Scanned.bytes { op := 0xFB, sub := some sub, numbers } =
      0xFB :: (Leb128.u32 sub ++ numbers.flatten) := by
    simp [Scanned.bytes]
  unfold Scanned.Decodes
  rw [hbytes]
  refine ((gcImm_decides hsub hcount hdigits).map fun g hg => ?_).instr rfl fun i hi => ⟨rfl, hi⟩
  exact .gc (hg ▸ hsub)

theorem Scanned.decodes_vector (hlength : literal.length = 16) :
    Scanned.Decodes { op := 0xFD, sub := some 0x0C, literal } := by
  have hbytes : Scanned.bytes { op := 0xFD, sub := some 0x0C, literal } =
      0xFD :: (Leb128.u32 0x0C ++ literal) := by
    simp [Scanned.bytes]
  have hread := Spells.bytes literal
  rw [hlength] at hread
  have himm : Spells (imm .simd) (Leb128.u32 0x0C ++ literal)
      (.simd { sub := 0x0C, bytes := literal }) :=
    ((readU32_spells 0x0C).bind hread.bind_pure).map _
  have hdecides : Decides (imm .simd) (Leb128.u32 0x0C ++ literal) True
      fun i => Instr.Constant ⟨0xFD, i⟩ := .of_spells himm (.vector hlength)
  unfold Scanned.Decodes Scanned.Short
  rw [hbytes, iff_true_intro (forall_mem_nil _)]
  exact hdecides.instr rfl fun i hi => ⟨rfl, hi⟩

theorem Scanned.decodes_operator (hop : op ∈ constantOperators) : Scanned.Decodes { op } := by
  obtain ⟨hlayout, -⟩ := constantOperators_layout op hop
  exact Scanned.decodes_literal hlayout (.done Imm.none) (.operator Imm.none hop)

theorem Scanned.decodes_digits {number : Bytes} (hop : op ∈ numberOpcodes) (h : Digits number) :
    Scanned.Decodes { op, numbers := [number] } := by
  simp only [numberOpcodes, mem_cons, not_mem_nil, or_false] at hop
  rcases hop with rfl | rfl | rfl | rfl | rfl
  · exact Scanned.decodes_number rfl (h.readS32.map fun v _ => .i32 v)
  · exact Scanned.decodes_number rfl (h.readS64.map fun v _ => .i64 v)
  · exact Scanned.decodes_number rfl (h.readU32.map fun v _ => .globalGet v)
  · exact Scanned.decodes_number rfl (h.readS64.map fun v _ => .refNull v)
  · exact Scanned.decodes_number rfl (h.readU32.map fun v _ => .refFunc v)

theorem Scanned.decodes_float {bits : Bytes → Imm} (hop : Layout.ofOpcode? op = some layout)
    (himm : imm layout = wholeBytes literal.length >>= fun bs => pure (bits bs))
    (hi : Instr.Constant ⟨op, bits literal⟩) : Scanned.Decodes { op, literal } := by
  refine Scanned.decodes_literal hop ?_ hi
  rw [himm]
  exact (Spells.wholeBytes literal).bind_pure

/-- An instruction whose opcodes are those of constant expressions is taken by the decoder too, one case
for each family of opcodes. -/
theorem Scanned.Laid.decodes {s : Scanned} (h : s.Laid) (hs : s.IsConstant) : s.Decodes := by
  cases h with
  | number hop hdigits => exact Scanned.decodes_digits hop hdigits
  | f32 hlength => exact Scanned.decodes_float rfl (by rw [hlength]; rfl) (.f32 _)
  | f64 hlength => exact Scanned.decodes_float rfl (by rw [hlength]; rfl) (.f64 _)
  | @simd sub literal hlength =>
    obtain rfl : sub = 0x0C := by
      simpa [Scanned.IsConstant, constantOpcodes, constantOperators] using hs
    exact Scanned.decodes_vector (hlength rfl)
  | @gc sub numbers hcount hdigits =>
    have hsub : sub ∈ constantGcOpcodes := by
      simpa [Scanned.IsConstant, constantOpcodes, constantOperators] using hs
    exact Scanned.decodes_gc hsub hcount hdigits
  | bare hnumber hfloat hpair =>
    refine Scanned.decodes_operator ?_
    simp_all [Scanned.IsConstant, constantOpcodes, numberOpcodes]

theorem scanWithin_decodes {bound : Nat} {c c' : Cursor} (h : scanWithin bound c = .ok ps c')
    (hps : ∀ p ∈ ps, p.IsConstant) : ∀ p ∈ ps, p.Decodes := by
  induction bound generalizing c c' ps with
  | zero => exact absurd h throw_ne_ok
  | succ bound ih =>
    obtain ⟨op, d, -, h⟩ := of_bind h
    split at h
    next =>
      cases h
      exact fun p hp => absurd hp not_mem_nil
    next =>
      obtain ⟨first, e, hfirst, h⟩ := of_bind h
      obtain ⟨rest, f, hrest, h⟩ := of_bind h
      cases h
      obtain ⟨hconst, hconsts⟩ := forall_mem_cons.mp hps
      exact forall_mem_cons.mpr ⟨(scanned_laid hfirst).decodes hconst, ih hrest hconsts⟩

/-- Instructions that are decoded one by one are decoded in a row up to an `end`, and a number too long
in one of them is the end of it. -/
theorem instrs_decide (h : ∀ p ∈ ps, p.Decodes) {bound : Nat} (hbound : ps.length < bound)
    (pos : Nat) :
    ((∀ p ∈ ps, p.Short) → ∃ init c, instrs bound ⟨ps.flatMap Scanned.bytes ++ [0x0B], pos⟩ =
        .ok (init ++ [⟨0x0B, .none⟩]) c ∧
      Forall₂ (fun i (p : Scanned) => i.op = p.op ∧ i.Constant) init ps) ∧
    (¬ (∀ p ∈ ps, p.Short) → ∃ fault c,
      instrs bound ⟨ps.flatMap Scanned.bytes ++ [0x0B], pos⟩ = .error fault c) := by
  induction ps generalizing bound pos with
  | nil =>
    obtain ⟨bound, rfl⟩ := Nat.exists_eq_succ_of_ne_zero (Nat.ne_of_gt hbound)
    refine ⟨fun _ => ⟨[], ⟨[], pos + 1⟩, ?_, .nil⟩, fun hnot => absurd (forall_mem_nil _) hnot⟩
    cases bound <;> rfl
  | cons p ps ih =>
    obtain ⟨bound, rfl⟩ := Nat.exists_eq_succ_of_ne_zero (Nat.ne_of_gt (Nat.zero_lt_of_lt hbound))
    obtain ⟨hp, hps⟩ := forall_mem_cons.mp h
    have hopen : instrs (bound + 1) ⟨(p :: ps).flatMap Scanned.bytes ++ [0x0B], pos⟩ =
        (instr >>= fun first => instrs bound >>= fun others => pure (first :: others))
          ⟨p.bytes ++ (ps.flatMap Scanned.bytes ++ [0x0B]), pos⟩ := by
      rw [flatMap_cons, append_assoc]
      rfl
    by_cases hshort : p.Short
    · obtain ⟨i, hi, hspells⟩ := hp.taken hshort
      rw [bind_of_eq_ok (hspells _ pos)] at hopen
      obtain ⟨htaken, hrefused⟩ :=
        ih hps (Nat.lt_of_succ_lt_succ hbound) (pos + p.bytes.length)
      rw [hopen, forall_mem_cons, and_iff_right hshort]
      constructor
      · intro hall
        obtain ⟨init, c, hread, hpairs⟩ := htaken hall
        refine ⟨i :: init, c, ?_, .cons hi hpairs⟩
        rw [bind_of_eq_ok hread]
        rfl
      · intro hnot
        obtain ⟨fault, c, hfault⟩ := hrefused hnot
        exact ⟨fault, c, bind_error hfault⟩
    · obtain ⟨fault, c, hfault⟩ := hp.refused hshort (ps.flatMap Scanned.bytes ++ [0x0B]) pos
      rw [hopen]
      exact ⟨fun hall => absurd (hall p mem_cons_self) hshort,
        fun _ => ⟨fault, c, bind_error hfault⟩⟩

end Reader

namespace Wire

theorem Instr.Constant.ne_end {i : Instr} (h : i.Constant) : i.op ≠ 0x0B :=
  h.isConstant.ne_end

/-- The decoder finds an instruction for each one that was met, and an `end` behind them all. -/
def Decoded (expr : Bytes) (ps : List Scanned) : Prop :=
  ∃ init, decodeInstrs expr = .ok (init ++ [⟨0x0B, .none⟩]) ∧
    List.Forall₂ (fun i (p : Scanned) => i.op = p.op ∧ i.op ≠ 0x0B ∧ i.Constant) init ps

/-- A scanned expression decodes exactly if its numbers are short. -/
theorem decoded_of_decodes {ps : List Scanned} (h : ∀ p ∈ ps, p.Decodes) :
    ((∀ p ∈ ps, p.Short) → Decoded (ps.flatMap Scanned.bytes ++ [0x0B]) ps) ∧
      (¬ (∀ p ∈ ps, p.Short) →
        ∃ fault, decodeInstrs (ps.flatMap Scanned.bytes ++ [0x0B]) = .error fault) := by
  have hbound : ps.length < (ps.flatMap Scanned.bytes ++ [0x0B]).length := by
    have hle : ps.length ≤ (ps.flatMap Scanned.bytes).length :=
      length_le_flatMap fun p _ => cons_ne_nil _ _
    rw [length_append, length_singleton]
    omega
  obtain ⟨htaken, hrefused⟩ := instrs_decide h hbound 0
  unfold Decoded decodeInstrs Reader.run Cursor.start
  constructor
  · intro hall
    obtain ⟨init, c, hread, hpairs⟩ := htaken hall
    rw [hread]
    exact ⟨init, rfl, hpairs.imp fun i p hi => ⟨hi.1, hi.2.ne_end, hi.2⟩⟩
  · intro hnot
    obtain ⟨fault, c, hfault⟩ := hrefused hnot
    rw [hfault]
    exact ⟨fault, rfl⟩

/-- The scan and the decoder agree. Constant instructions and an `end` are written as bytes that the scan
takes as they are, whatever follows. What the scan takes is what it meets one by one; if these are
constants, the decoder finds just them in it, as long as no number among them is too long. -/
theorem scan_agrees (init : List Instr) (c : Cursor) :
    ((∀ i ∈ init, i.Constant) →
      ∃ w, encodeInstrs (init ++ [⟨0x0B, .none⟩]) = .ok w ∧ Spells constExpr w w) ∧
    ∀ expr c', constExpr c = .ok expr c' → ∃ ps, scan c = .ok ps c' ∧
      expr = ps.flatMap Scanned.bytes ++ [0x0B] ∧ ((∀ p ∈ ps, p.IsConstant) →
        ((∀ p ∈ ps, p.Short) → Decoded expr ps) ∧
          (¬ (∀ p ∈ ps, p.Short) → ∃ fault, decodeInstrs expr = .error fault)) := by
  constructor
  · intro hinit
    obtain ⟨w, hw⟩ : ∃ w, encodeInstrs (init ++ [⟨0x0B, .none⟩]) = .ok w := by
      refine encodeInstrs_exists fun i hi => ?_
      rcases mem_append.mp hi with hi | hi
      · exact (hinit i hi).written
      · obtain rfl := mem_singleton.mp hi
        exact ⟨_, rfl⟩
    exact ⟨w, hw, constExpr_spells (fun i hi => (hinit i hi).isConstant) hw⟩
  · intro expr c' h
    obtain ⟨ps, hps, rfl⟩ := constExpr_eq_ok_iff.mp h
    exact ⟨ps, hps, rfl, fun hconst => decoded_of_decodes (scanWithin_decodes hps hconst)⟩

/-- A constant and an array whose immediates hold the byte of an `end`, in front of one more. -/
def buriedEnds : Bytes := [0x41, 0x8B, 0x00, 0xFB, 0x88, 0x00, 0x0B, 0x0B, 0x0B, 0x0B]

def buriedParts : List Scanned :=
  [{ op := 0x41, numbers := [[0x8B, 0x00]] }, { op := 0xFB, sub := some 0x08, numbers := [[0x0B], [0x0B]] }]

theorem buriedEnds_agree :
    (∃ w, encodeInstrs [⟨0x41, .i32 11⟩, ⟨0xFB, .gc { sub := 0x08, type := 11, size := 11 }⟩,
      ⟨0x0B, .none⟩] = .ok w ∧ Spells constExpr w w) ∧
    constExpr ⟨buriedEnds, 0⟩ = .ok [0x41, 0x8B, 0x00, 0xFB, 0x08, 0x0B, 0x0B, 0x0B] ⟨[0x0B], 9⟩ ∧
    Decoded [0x41, 0x8B, 0x00, 0xFB, 0x08, 0x0B, 0x0B, 0x0B] buriedParts := by
  have hscan : scan ⟨buriedEnds, 0⟩ = .ok buriedParts ⟨[0x0B], 9⟩ := by rfl
  have hread : constExpr ⟨buriedEnds, 0⟩ =
      .ok [0x41, 0x8B, 0x00, 0xFB, 0x08, 0x0B, 0x0B, 0x0B] ⟨[0x0B], 9⟩ :=
    constExpr_eq_ok_iff.mpr ⟨_, hscan, by decide +kernel⟩
  obtain ⟨hwritten, hscanned⟩ := scan_agrees
    [⟨0x41, .i32 11⟩, ⟨0xFB, .gc { sub := 0x08, type := 11, size := 11 }⟩] ⟨buriedEnds, 0⟩
  obtain ⟨ps, hps, -, hdecoded⟩ := hscanned _ _ hread
  cases hscan.symm.trans hps
  refine ⟨hwritten ?_, hread, (hdecoded ?_).1 ?_⟩
  · exact forall_mem_cons.mpr ⟨.i32 11, forall_mem_singleton.mpr (.gc (by decide))⟩
  · simp [buriedParts, Scanned.IsConstant, constantOpcodes, constantGcOpcodes]
  · simp [buriedParts, Scanned.Short, mostGroups]

end Wire

end HostCatch
