import HostCatch.Proofs.Program.BlockTypes
import HostCatch.Proofs.Wire.Shortest

namespace HostCatch

open List Wire Reader

namespace Leb128

/-- The groups at the start of some bytes. -/
def leading (bs : Bytes) : Bytes :=
  bs.takeWhile (0x80 ≤ ·) ++ (bs.dropWhile (0x80 ≤ ·)).take 1

theorem Digits.leading {ds : Bytes} (h : Digits ds) (rest : Bytes) :
    Leb128.leading (ds ++ rest) = ds := by
  unfold Leb128.leading
  induction h with
  | last hlt =>
    rw [singleton_append, takeWhile_cons_of_neg (by simpa using hlt),
      dropWhile_cons_of_neg (by simpa using hlt)]
    rfl
  | more hlt _ ih =>
    rw [cons_append, takeWhile_cons_of_pos (by simpa using hlt),
      dropWhile_cons_of_pos (by simpa using hlt), cons_append, ih]

end Leb128

open Leb128

/-- The number of a block type behind the first opcode, as it is spelled. -/
def Wire.blockNumber? : Bytes → Option Int
  | op :: rest =>
    if Layout.ofOpcode? op = some .block ∨ Layout.ofOpcode? op = some .tryTable then
      some (exactSigned (leading rest))
    else none
  | [] => none

/-- The numbers of all block types up to the end of the input, as they are spelled. -/
def Reader.blockNumbers : Nat → Reader (List Int)
  | 0 => pure []
  | bound + 1 => do
    if ← atEnd then pure []
    else
      let c ← get
      let _ ← instr
      let rest ← blockNumbers bound
      pure ((blockNumber? c.rest).toList ++ rest)

/-- The numbers of the block types in a piece of code. -/
def Wire.blockNumbers (code : Bytes) : Except ReadFault (List Int) :=
  (Reader.blockNumbers code.length).run code

namespace Wire

variable {op : UInt8} {is : List Instr} {w : Bytes} {i : Instr}

/-- An instruction that opens a construct of a type. -/
inductive Instr.Opener : Instr → Int32 → Prop
  | block {op : UInt8} (t) : op ∈ [0x02, 0x03, 0x04, 0x06] → Opener ⟨op, .block t⟩ t
  | tryTable (t catches) : Opener ⟨0x1F, .tryTable t catches⟩ t

theorem ite_ne {α : Type} {c : Prop} [Decidable c] {x y z : α} (hx : x ≠ z) (hy : y ≠ z) :
    (if c then x else y) ≠ z := by
  split
  · exact hx
  · exact hy

theorem Layout.ofOpcode?_block (h : Layout.ofOpcode? op = some .block) :
    op ∈ [0x02, 0x03, 0x04, 0x06] := by
  by_contra hop
  rw [Layout.ofOpcode?, if_neg hop] at h
  refine absurd h ?_
  repeat' apply ite_ne
  all_goals exact fun heq => by cases heq

theorem Layout.ofOpcode?_tryTable (h : Layout.ofOpcode? op = some .tryTable) : op = 0x1F := by
  by_contra hop
  rw [Layout.ofOpcode?] at h
  simp only [if_neg hop] at h
  refine absurd h ?_
  repeat' apply ite_ne
  all_goals exact fun heq => by cases heq

theorem Instr.Spelled.opener (h : i.Spelled) {t : Int32} (ht : i.blockType? = some t) :
    i.Opener t := by
  obtain ⟨op, imm⟩ := i
  obtain ⟨layout, -, -, hlayout, -⟩ := h.imm
  have hnone : layout = .none → imm = .none := fun heq => h.none (heq ▸ hlayout)
  obtain ⟨w, hw, -, -⟩ := h
  rw [Wire.instr, hlayout] at hw
  obtain ⟨v, hv, -⟩ := map_eq_ok_iff.mp hw
  cases imm with
  | block type =>
    cases ht
    cases layout with
    | none => cases hnone rfl
    | block => exact .block t (Layout.ofOpcode?_block hlayout)
    | _ => cases hv
  | tryTable type catches =>
    cases ht
    cases layout with
    | none => cases hnone rfl
    | tryTable =>
      obtain rfl := Layout.ofOpcode?_tryTable hlayout
      exact .tryTable t catches
    | _ => cases hv
  | _ => cases ht

theorem blockNumber?_of_opener
    (h : Layout.ofOpcode? op = some .block ∨ Layout.ofOpcode? op = some .tryTable) {ds : Bytes}
    (hds : Digits ds) (rest : Bytes) :
    blockNumber? (op :: (ds ++ rest)) = some (exactSigned ds) := by
  rw [blockNumber?, if_pos h, hds.leading]

/-- What is spelled in a piece of code that is read is reduced to 32 bits. -/
theorem blockNumber?_of_instr {c c' : Cursor} (h : Reader.instr c = .ok i c') :
    i.blockType? = (blockNumber? c.rest).map Int32.ofInt := by
  have hspelled := instr_eq_ok h
  obtain ⟨op, d, hop, h⟩ := Reader.of_bind h
  have hrest : c.rest = op :: d.rest := (byte_eq_ok_iff.mp hop).rest
  cases hlayout : Layout.ofOpcode? op with
  | none =>
    rw [hlayout] at h
    exact absurd h throw_ne_ok
  | some layout =>
    rw [hlayout] at h
    obtain ⟨imm, e, himm, h⟩ := Reader.of_bind h
    cases h
    rw [hrest]
    cases layout with
    | block =>
      obtain ⟨t, ht, rfl⟩ := Reader.map_eq_ok_iff.mp himm
      obtain ⟨ds, hds, -, hpasses, rfl⟩ := (Width.s32_reduces.given _ _ _).mp ht
      rw [hpasses.rest, blockNumber?_of_opener (.inl hlayout) hds]
      rfl
    | tryTable =>
      obtain ⟨t, f, ht, himm⟩ := Reader.of_bind himm
      obtain ⟨n, g, -, himm⟩ := Reader.of_bind himm
      obtain ⟨catches, k, -, himm⟩ := Reader.of_bind himm
      cases himm
      obtain ⟨ds, hds, -, hpasses, rfl⟩ := (Width.s32_reduces.given _ _ _).mp ht
      rw [hpasses.rest, blockNumber?_of_opener (.inr hlayout) hds]
      rfl
    | _ =>
      rw [blockNumber?, if_neg (by rw [hlayout]; decide), Option.map_none, Option.eq_none_iff_forall_ne_some]
      intro t ht
      cases hspelled.opener ht with
      | block _ hmem => cases (if_pos hmem).symm.trans hlayout
      | tryTable => cases hlayout

/-- Wherever instructions are read, the numbers of their block types are. -/
theorem blockNumbers_of_instrs {bound : Nat} {c c' : Cursor} (h : Reader.instrs bound c = .ok is c') :
    ∃ ks, Reader.blockNumbers bound c = .ok ks c' ∧
      is.filterMap Instr.blockType? = ks.map Int32.ofInt := by
  induction bound generalizing c c' is with
  | zero =>
    cases h
    exact ⟨[], rfl, rfl⟩
  | succ bound ih =>
    obtain ⟨ended, d, hended, h⟩ := Reader.of_bind h
    split at h
    next hdone =>
      cases h
      refine ⟨[], Reader.bind_eq_ok_iff.mpr ⟨ended, _, hended, ?_⟩, rfl⟩
      rw [if_pos hdone]
      rfl
    next hmore =>
      obtain ⟨first, e, hfirst, h⟩ := Reader.of_bind h
      obtain ⟨rest, f, hrest, h⟩ := Reader.of_bind h
      obtain ⟨rfl, rfl⟩ := Reader.pure_eq_ok_iff.mp h
      obtain ⟨ks, hks, hsame⟩ := ih hrest
      refine ⟨(blockNumber? d.rest).toList ++ ks, Reader.bind_eq_ok_iff.mpr ⟨ended, d, hended, ?_⟩, ?_⟩
      · rw [if_neg hmore]
        refine Reader.bind_eq_ok_iff.mpr ⟨d, d, rfl, ?_⟩
        refine Reader.bind_eq_ok_iff.mpr ⟨first, e, hfirst, ?_⟩
        exact Reader.bind_eq_ok_iff.mpr ⟨ks, f, hks, rfl⟩
      · rw [map_append, ← hsame, filterMap_cons, blockNumber?_of_instr hfirst]
        cases blockNumber? d.rest <;> rfl

theorem blockNumbers_of_decodeInstrs {code : Bytes} (h : decodeInstrs code = .ok is) :
    ∃ ks, blockNumbers code = .ok ks ∧ is.filterMap Instr.blockType? = ks.map Int32.ofInt := by
  unfold decodeInstrs Reader.run at h
  split at h
  next found rest hread =>
    cases h
    obtain ⟨ks, hks, hsame⟩ := blockNumbers_of_instrs hread
    exact ⟨ks, by rw [blockNumbers, Reader.run, hks], hsame⟩
  next => cases h

theorem blockNumber?_written (h : i.Spelled) (hw : Wire.instr i = .ok w) (rest : Bytes) :
    blockNumber? (w ++ rest) = i.blockType?.map Int32.toInt := by
  have hnumber : i.blockType? = (blockNumber? (w ++ rest)).map Int32.ofInt := by
    obtain ⟨v, hv, -, hread⟩ := h
    cases hv.symm.trans hw
    exact blockNumber?_of_instr (hread rest 0)
  cases htype : i.blockType? with
  | none =>
    rw [htype] at hnumber
    exact Option.map_eq_none_iff.mp hnumber.symm
  | some t =>
    have hwritten : ∃ more, w = i.op :: (s32 t ++ more) ∧ (Layout.ofOpcode? i.op = some .block ∨
        Layout.ofOpcode? i.op = some .tryTable) := by
      cases h.opener htype with
      | @block op t hop =>
        have hlayout : Layout.ofOpcode? op = some .block := if_pos hop
        rw [Wire.instr, hlayout] at hw
        cases hw
        exact ⟨[], by rw [append_nil], .inl hlayout⟩
      | tryTable t catches =>
        cases hw
        exact ⟨_, rfl, .inr rfl⟩
    obtain ⟨more, rfl, hlayout⟩ := hwritten
    rw [cons_append, append_assoc, s32, blockNumber?_of_opener hlayout (signed_digits _),
      exactSigned_signed]
    rfl

/-- The numbers of blocks can be found in the bytes of the code. -/
theorem blockNumbers_encodeInstrs (h : ∀ i ∈ is, i.Spelled) (hw : encodeInstrs is = .ok w) :
    blockNumbers w = .ok ((is.filterMap Instr.blockType?).map Int32.toInt) := by
  have hall : ∀ {is : List Instr}, (∀ i ∈ is, i.Spelled) → ∀ {w}, encodeInstrs is = .ok w →
      ∀ bound pos, w.length ≤ bound → ∃ c', Reader.blockNumbers bound ⟨w, pos⟩ =
        .ok ((is.filterMap Instr.blockType?).map Int32.toInt) c' := by
    intro is
    induction is with
    | nil =>
      rintro - w ⟨⟩ bound pos -
      cases bound <;> exact ⟨_, rfl⟩
    | cons i is ih =>
      intro h w hw bound pos hbound
      obtain ⟨hi, his⟩ := forall_mem_cons.mp h
      obtain ⟨first, hfirst, hw⟩ := of_bind hw
      obtain ⟨others, hothers, hw⟩ := of_bind hw
      cases hw
      have hnumber := blockNumber?_written hi hfirst others
      obtain ⟨v, hv, hne, hread⟩ := hi
      cases hv.symm.trans hfirst
      have hpos := length_pos_iff.mpr hne
      rw [length_append] at hbound
      cases bound with
      | zero => omega
      | succ bound =>
        obtain ⟨c', hrest⟩ := ih his hothers bound (pos + first.length) (by omega)
        refine ⟨c', Reader.bind_eq_ok_iff.mpr ⟨false, ⟨first ++ others, pos⟩, by simp [atEnd, hne], ?_⟩⟩
        refine Reader.bind_eq_ok_iff.mpr ⟨_, _, rfl, ?_⟩
        refine Reader.bind_eq_ok_iff.mpr ⟨i, _, hread others pos, ?_⟩
        refine Reader.bind_eq_ok_iff.mpr ⟨_, _, hrest, ?_⟩
        rw [hnumber, filterMap_cons, Reader.pure_eq_ok_iff]
        cases i.blockType? <;> exact ⟨rfl, rfl⟩
  obtain ⟨c', hread⟩ := hall h hw w.length 0 (Nat.le_refl _)
  rw [blockNumbers, Reader.run, Cursor.start, hread]

/-- What is left of the number of a block type: 32 bits and, where they are negative, eight. -/
def narrowed (k : Int) : Int :=
  if 0 ≤ k.bmod 0x100000000 then k.bmod 0x100000000 else k.bmod 0x100

theorem toInt_shortType_ofInt (k : Int) : (shortType (Int32.ofInt k)).toInt = narrowed k := by
  have hk : (Int32.ofInt k).toInt = k.bmod 0x100000000 := Int32.toInt_ofInt
  unfold narrowed
  split
  next hpos =>
    rw [shortType_of_le, hk]
    rw [Int32.le_iff_toInt_le, hk]
    exact Int.le_trans (by decide) hpos
  next hneg =>
    rw [toInt_shortType_of_neg (by omega), hk]
    simp only [Int.bmod_def]
    omega

/-- Numbers stay what they are where 32 bits hold them and, if they are negative, eight do. -/
theorem narrowed_eq_iff (k : Int) : narrowed k = k ↔ -128 ≤ k ∧ k < 2 ^ 31 := by
  unfold narrowed
  simp only [Int.bmod_def]
  omega

theorem blockFuncType?_isSome_of_neg (types : List FuncType) {k : Int} (h : k < 0) :
    (blockFuncType? types k).isSome ↔ k = -64 ∨ -5 ≤ k ∨ -23 ≤ k ∧ k ≤ -12 := by
  rw [blockFuncType?, if_neg (by omega)]
  split
  next hempty => exact iff_of_true rfl (.inl hempty)
  next hempty =>
    rw [or_iff_right hempty]
    split
    next hcode => exact iff_of_true rfl hcode
    next hcode => exact iff_of_false Bool.false_ne_true hcode

/-- Among the numbers that stand for a function type once they are narrowed, those that do so as they
are spelled. -/
theorem blockFuncType?_isSome_iff (types : List FuncType) {k : Int}
    (h : (blockFuncType? types (narrowed k)).isSome) :
    (blockFuncType? types k).isSome ↔ -128 ≤ k ∧ k < max (2 ^ 31) types.length := by
  by_cases hkept : narrowed k = k
  · rw [hkept] at h
    have hrange := (narrowed_eq_iff k).mp hkept
    exact iff_of_true h ⟨hrange.1, by omega⟩
  · rw [narrowed_eq_iff] at hkept
    by_cases hneg : k < 0
    · rw [blockFuncType?_isSome_of_neg types hneg]
      omega
    · obtain ⟨n, rfl⟩ := Int.eq_ofNat_of_zero_le (by omega : 0 ≤ k)
      rw [blockFuncType?_natCast, isSome_getElem?]
      omega

/-- Instructions that are given new numbers open constructs of the same types, in their short form. -/
theorem Instr.Spelled.blockType?_renumber (h : i.Spelled) (ρ : Renumbering) :
    (i.renumber ρ).blockType? = i.blockType?.map shortType := by
  cases htype : i.blockType? with
  | some t =>
    cases h.opener htype with
    | block t hop =>
      simp only [mem_cons, not_mem_nil, or_false] at hop
      rcases hop with rfl | rfl | rfl | rfl <;> rfl
    | tryTable => rfl
  | none =>
    obtain ⟨op, imm⟩ := i
    unfold Instr.renumber
    dsimp only
    split
    all_goals first
      | exact htype
      | rfl
      | cases htype

theorem blockType?_dropEmptyElse (h : ∀ i ∈ is, i.Spelled) :
    (dropEmptyElse is).filterMap Instr.blockType? = is.filterMap Instr.blockType? := by
  fun_induction dropEmptyElse is with
  | case1 i j rest hempty ih =>
    obtain ⟨hi, hrest⟩ := forall_mem_cons.mp h
    have hnone : i.blockType? = none := by
      cases htype : i.blockType? with
      | none => rfl
      | some t =>
        cases hi.opener htype with
        | @block op t hop =>
          obtain rfl : op = 0x05 := hempty.1
          exact absurd hop (by decide)
        | tryTable => cases hempty.1
    rw [ih hrest, filterMap_cons_none hnone]
  | case2 i j rest _ ih =>
    rw [filterMap_cons, ih (forall_mem_cons.mp h).2]
    rfl
  | case3 => rfl

/-- Code that is written again has the numbers that are left of those which it was read with. -/
theorem blockNumbers_rewritten (h : ∀ i ∈ is, i.Spelled) {ks : List Int}
    (hks : is.filterMap Instr.blockType? = ks.map Int32.ofInt) {ρ : Renumbering}
    (hw : encodeInstrs ((dropEmptyElse is).map (·.renumber ρ)) = .ok w) :
    blockNumbers w = .ok (ks.map narrowed) := by
  have hkept : ∀ i ∈ dropEmptyElse is, i.Spelled := fun i hi => h i (mem_of_mem_dropEmptyElse hi)
  have hshort : ((dropEmptyElse is).map (·.renumber ρ)).filterMap Instr.blockType? =
      (ks.map Int32.ofInt).map shortType := by
    rw [← hks, ← blockType?_dropEmptyElse h, filterMap_map, map_filterMap]
    exact filterMap_congr fun i hi => (hkept i hi).blockType?_renumber ρ
  have hspelled : ∀ i ∈ (dropEmptyElse is).map (·.renumber ρ), i.Spelled :=
    forall_mem_map.mpr fun i hi => (hkept i hi).renumber ρ
  rw [blockNumbers_encodeInstrs hspelled hw, hshort, map_map, map_map]
  exact congrArg Except.ok (map_congr_left fun k _ => toInt_shortType_ofInt k)

end Wire

theorem ValType.ofCode_isOk_iff {c : TypeCode} : (∃ v, ofCode c = .ok v) ↔
    0x7B ≤ c.toNat ∧ c.toNat ≤ 0x7F ∨ 0x69 ≤ c.toNat ∧ c.toNat ≤ 0x74 := by
  constructor
  · rintro ⟨v, hv⟩
    obtain ⟨hcode, rfl⟩ := ofCode_eq_ok hv
    exact code_range (ofCode_known hv) hcode
  · rintro (⟨hlow, hhigh⟩ | ⟨hlow, hhigh⟩)
    · have hc : c = UInt8.ofNat c.toNat := (UInt8.ofNat_toNat).symm
      generalize c.toNat = n at *
      subst hc
      interval_cases n
      all_goals exact ⟨_, rfl⟩
    · exact ⟨_, ofCode_reference (UInt8.le_iff_toNat_le.mpr hlow) (UInt8.le_iff_toNat_le.mpr hhigh)⟩

/-- Numbers that are read as the type of a block: what is left of them stands for a function type. More
may be lost than does not fit into 32 bits only where this is the code of a result. -/
def Wire.TakenAsType (types : List FuncType) (k : Int) : Prop :=
  (blockFuncType? types (narrowed k)).isSome ∧
    (narrowed k = k.bmod 0x100000000 ∨ -23 ≤ narrowed k ∧ narrowed k < 0)

/-- The numbers of blocks that are taken as types. -/
theorem Scope.blockType_isOk_iff {scope : Scope} {types : List FuncType}
    (htypes : scope.types = types.length) (k : Int) :
    (∃ type, scope.blockType (Int32.ofInt k) = .ok type) ↔ TakenAsType types k := by
  have ht : (Int32.ofInt k).toInt = k.bmod 0x100000000 := Int32.toInt_ofInt
  have hshort := toInt_shortType_ofInt k
  unfold TakenAsType Scope.blockType
  rw [← hshort, ← ht]
  generalize Int32.ofInt k = t
  split
  next hempty =>
    subst hempty
    exact iff_of_true ⟨_, rfl⟩ ⟨rfl, .inl rfl⟩
  next hne =>
    have hne : t.toInt ≠ -64 := fun heq => hne (Int32.toInt_inj.mp heq)
    split
    next hpos =>
      have hpos : 0 ≤ t.toInt := Int32.le_iff_toInt_le.mp hpos
      have hshort : shortType t = t := shortType_of_le (Int32.le_iff_toInt_le.mpr (by simp; omega))
      rw [hshort, blockFuncType?, if_pos hpos, isSome_getElem?, ← htypes, and_iff_left (.inl rfl)]
      constructor
      · rintro ⟨type, h⟩
        obtain ⟨id, hid, -⟩ := map_eq_ok_iff.mp h
        exact (Scope.check_eq_ok hid).2
      · intro hlt
        exact ⟨_, map_eq_ok_iff.mpr ⟨_, check_of_lt hlt, rfl⟩⟩
    next hneg =>
      have hneg : t.toInt < 0 := by
        rw [Int32.le_iff_toInt_le] at hneg
        simpa using hneg
      have hshort := toInt_shortType_of_neg hneg
      have hcode : (∃ type, BlockType.single <$> scope.restate
            (ValType.ofCode (UInt8.ofNat ((t.toInt + 0x80) % 0x100).toNat)) = .ok type) ↔
          ∃ v, ValType.ofCode (UInt8.ofNat ((t.toInt + 0x80) % 0x100).toNat) = .ok v := by
        constructor
        · rintro ⟨type, h⟩
          obtain ⟨v, hv, -⟩ := map_eq_ok_iff.mp h
          exact ⟨v, Scope.restate_eq_ok hv⟩
        · rintro ⟨v, hv⟩
          exact ⟨_, map_eq_ok_iff.mpr ⟨v, restate_ok hv, rfl⟩⟩
      rw [hcode, ValType.ofCode_isOk_iff, UInt8.toNat_ofNat_of_lt' (by unfold UInt8.size; omega)]
      by_cases hleft : (shortType t).toInt < 0
      · rw [blockFuncType?_isSome_of_neg types hleft]
        omega
      · exact iff_of_false (by omega) fun h => by omega

namespace Reading

theorem step_blockType {scope : Scope} {r next : Reading} {top : Frame} {outer : List Frame}
    {i : Wire.Instr} {t : Int32} (h : step scope r top outer i = .ok next) (hi : i.Opener t) :
    ∃ type, scope.blockType t = .ok type := by
  cases hi with
  | block t hop =>
    simp only [mem_cons, not_mem_nil, or_false] at hop
    rcases hop with rfl | rfl | rfl | rfl
    all_goals
      obtain ⟨type, htype, -⟩ := of_bind h
      exact ⟨type, htype⟩
  | tryTable t catches =>
    obtain ⟨type, htype, -⟩ := of_bind h
    exact ⟨type, htype⟩

theorem run_blockTypes {scope : Scope} {r : Reading} {is : List Wire.Instr} {seqs : List Seq}
    (h : run scope r is = .ok seqs) (hspelled : ∀ i ∈ is, i.Spelled) :
    ∀ t ∈ is.filterMap Wire.Instr.blockType?, ∃ type, scope.blockType t = .ok type := by
  induction is generalizing r with
  | nil => exact forall_mem_nil _
  | cons i is ih =>
    obtain ⟨before, frames⟩ := r
    cases frames with
    | nil => cases h
    | cons top outer =>
      obtain ⟨next, hstep, hrest⟩ := run_cons_eq_ok h
      obtain ⟨hi, his⟩ := forall_mem_cons.mp hspelled
      intro t ht
      obtain ⟨x, hx, htype⟩ := mem_filterMap.mp ht
      rcases mem_cons.mp hx with rfl | hx
      · exact step_blockType hstep (hi.opener htype)
      · exact ih hrest his t (mem_filterMap.mpr ⟨x, hx, htype⟩)

end Reading

namespace Program

variable {m : Wire.Module} {p : Program} {i : Nat} {code : Wire.FuncBody}

/-- The numbers with which a body that is read opens its constructs. All of them are taken as types, but
those below -128, and those beyond 31 bits that no index reaches, stand for none. What is written is what
is left of them. -/
theorem ofModule_blockNumbers (hp : ofModule m = .ok p) (hcode : m.code[i]? = some code) :
    ∃ ks, Wire.blockNumbers code.code = .ok ks ∧
      (∀ k ∈ ks, Wire.TakenAsType m.types k ∧ ((Wire.blockFuncType? m.types k).isSome ↔
        -128 ≤ k ∧ k < max (2 ^ 31) m.types.length)) ∧
      ∀ out, p.toModule = .ok out → ∃ body, out.code[i]? = some body ∧
        Wire.blockNumbers body.code = .ok (ks.map Wire.narrowed) := by
  obtain ⟨q, s, tables, exports, h⟩ := ofModule_eq_ok hp
  obtain ⟨start, declared, b, f, hf, hkind, hread, -⟩ := h.body hcode
  obtain ⟨is, his, hrun⟩ := Body.seqsOfCode_eq_ok_iff.mp hread.seqs
  have hspelled := Wire.decodeInstrs_spelled his
  obtain ⟨ks, hks, hsame⟩ := Wire.blockNumbers_of_decodeInstrs his
  have htypes : p.types.length = m.types.length := by
    rw [← (mapM_eq_ok_iff.mp h.signatures.1).length_eq, length_zipIdx]
  refine ⟨ks, hks, fun k hk => ?_, fun out hout => ?_⟩
  · have htaken : Wire.TakenAsType m.types k := by
      refine (Scope.blockType_isOk_iff htypes k).mp (Reading.run_blockTypes hrun hspelled _ ?_)
      rw [hsame]
      exact mem_map_of_mem hk
    exact ⟨htaken, Wire.blockFuncType?_isSome_iff m.types htaken.1⟩
  · obtain ⟨bodies, extra, names, hemits⟩ := toModule_eq_ok_iff.mp hout
    obtain ⟨hlength, hwritten⟩ := h.written hemits
    have hi : i < bodies.length := hlength ▸ (List.getElem?_eq_some_iff.mp hcode).1
    obtain ⟨u, v, hemit⟩ := hwritten i bodies[i] (List.getElem?_eq_getElem hi)
    obtain ⟨found, hfound, hencode⟩ := h.rewritten hcode hemit
    cases his.symm.trans hfound
    refine ⟨bodies[i].2, ?_, Wire.blockNumbers_rewritten hspelled hsame hencode⟩
    rw [hemits.code, getElem?_map, getElem?_eq_getElem hi, Option.map_some]

/-- Constructs of no type of their own, of the first type, and of two numbers that are left with the
code of a result. -/
def wideTypes : Wire.Module where
  types := [⟨[], [], [], []⟩]
  funcs := [0]
  code := [⟨[], [0x06, 0x40, 0x0B, 0x1F, 0x00, 0x00, 0x0B, 0x02, 0xFF, 0x7D, 0x41, 0x00, 0x0B, 0x1A,
    0x03, 0xFF, 0xFF, 0xFF, 0xFF, 0x0F, 0x41, 0x00, 0x0B, 0x1A, 0x0B]⟩]

theorem wideTypes_blockNumbers : ∃ p ks, ofModule wideTypes = .ok p ∧ ks = [-64, 0, -257, 0xFFFFFFFF] ∧
    (∀ k ∈ ks, Wire.TakenAsType wideTypes.types k ∧ ((Wire.blockFuncType? wideTypes.types k).isSome ↔
      -128 ≤ k ∧ k < max (2 ^ 31) wideTypes.types.length)) ∧
    ∀ out, p.toModule = .ok out → ∃ body, out.code[0]? = some body ∧
      Wire.blockNumbers body.code = .ok (ks.map Wire.narrowed) := by
  have hrun : ((ofModule wideTypes).toOption.any fun _ => true) = true := by decide +kernel
  obtain ⟨p, hp, -⟩ := any_toOption_iff.mp hrun
  obtain ⟨ks, hks, hall, hwritten⟩ := ofModule_blockNumbers hp (i := 0) rfl
  have hsame : Wire.blockNumbers [0x06, 0x40, 0x0B, 0x1F, 0x00, 0x00, 0x0B, 0x02, 0xFF, 0x7D, 0x41,
      0x00, 0x0B, 0x1A, 0x03, 0xFF, 0xFF, 0xFF, 0xFF, 0x0F, 0x41, 0x00, 0x0B, 0x1A, 0x0B] =
        .ok [-64, 0, -257, 0xFFFFFFFF] := by rfl
  cases hks.symm.trans hsame
  exact ⟨p, _, hp, rfl, hall, hwritten⟩

/-- The number -257 is no type of a block, but it is taken as one and comes out as the code of an
`i32`. -/
theorem wideTypes_taken : ∃ p out, ofModule wideTypes = .ok p ∧ p.toModule = .ok out ∧
    wideTypes.code.map (fun body => (Wire.blockNumbers body.code).toOption) =
      [some [-64, 0, -257, 0xFFFFFFFF]] ∧
    Wire.blockFuncType? wideTypes.types (-257) = none ∧
    Wire.blockFuncType? wideTypes.types 0xFFFFFFFF = none ∧
    out.code.map Wire.FuncBody.code = [[0x06, 0x40, 0x0B, 0x1F, 0x00, 0x00, 0x0B,
      0x02, 0x7F, 0x41, 0x00, 0x0B, 0x1A, 0x03, 0x7F, 0x41, 0x00, 0x0B, 0x1A, 0x0B]] := by
  have hrun : ((ofModule wideTypes).toOption.any fun p => p.toModule.toOption.any fun out =>
      out.code.map Wire.FuncBody.code == [[0x06, 0x40, 0x0B, 0x1F, 0x00, 0x00, 0x0B,
        0x02, 0x7F, 0x41, 0x00, 0x0B, 0x1A, 0x03, 0x7F, 0x41, 0x00, 0x0B, 0x1A, 0x0B]]) = true := by
    decide +kernel
  obtain ⟨p, hp, hrun⟩ := any_toOption_iff.mp hrun
  obtain ⟨out, hout, hrun⟩ := any_toOption_iff.mp hrun
  exact ⟨p, out, hp, hout, by decide +kernel, rfl, rfl, beq_iff_eq.mp hrun⟩

end Program

end HostCatch
