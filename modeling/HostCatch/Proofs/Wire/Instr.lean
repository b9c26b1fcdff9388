import HostCatch.Proofs.Success
import HostCatch.Proofs.Wire.Types
import HostCatch.Wire.Instr.Codec

namespace HostCatch

open List Wire Reader Leb128

namespace Wire

/-- An immediate has bytes, and they are read as that immediate. -/
def Imm.Spelled (layout : Layout) (i : Imm) : Prop :=
  ∃ w, Wire.imm layout i = .ok w ∧ Spells (Reader.imm layout) w i

/-- An instruction has bytes, and they are read as that instruction. -/
def Instr.Spelled (i : Instr) : Prop :=
  ∃ w, Wire.instr i = .ok w ∧ w ≠ [] ∧ Spells Reader.instr w i

theorem Imm.Spelled.instr {op : UInt8} {layout : Layout} {i : Imm}
    (hop : Layout.ofOpcode? op = some layout) (h : i.Spelled layout) : Instr.Spelled ⟨op, i⟩ := by
  obtain ⟨w, hw, hread⟩ := h
  refine ⟨op :: w, by simp [Wire.instr, hop, hw, Functor.map, Except.map], by simp, ?_⟩
  refine (Spells.byte op).bind ?_
  rw [hop]
  exact hread.bind_pure

section Bits

variable {a m k : UInt32}

theorem bits_or_and : (a ||| m) &&& k = (a &&& k) ||| (m &&& k) :=
  UInt32.toBitVec_inj.mp BitVec.and_or_distrib_right

theorem bits_and_not (h : a &&& m = 0) : a &&& ~~~m = a := by
  have hsplit : a &&& (m ||| ~~~m) = (a &&& m) ||| (a &&& ~~~m) :=
    UInt32.toBitVec_inj.mp BitVec.and_or_distrib_left
  rw [h, UInt32.zero_or, UInt32.or_not_self] at hsplit
  rw [← hsplit, UInt32.and_neg_one]

theorem bits_or_and_not (h : a &&& m = 0) : (a ||| m) &&& ~~~m = a := by
  rw [bits_or_and, UInt32.and_not_self, UInt32.or_zero, bits_and_not h]

theorem bits_or_and_self (h : a &&& m = 0) : (a ||| m) &&& m = m := by
  rw [bits_or_and, h, UInt32.zero_or, UInt32.and_self]

end Bits

/-- Bit six of the alignment is kept for the memory index. -/
theorem memArg_spells {arg : MemArg} (h : arg.align &&& 0x40 = 0) :
    Spells Reader.memArg (Wire.memArg arg) arg := by
  obtain ⟨align, offset, mem⟩ := arg
  unfold Wire.memArg
  split
  next hmem =>
    refine (readU32_spells align).bind ?_
    simp only at h hmem
    simp only [h, ne_eq, not_true_eq_false, ↓reduceIte, pure_bind, bits_and_not h, hmem]
    exact (readU64_spells offset).bind_pure
  next hmem =>
    have hset : (align ||| 0x40) &&& 0x40 ≠ 0 := by
      rw [bits_or_and_self h]
      decide
    rw [append_assoc]
    refine (readU32_spells _).bind ?_
    simp only [hset, ne_eq, not_false_eq_true, ↓reduceIte, bits_or_and_not h]
    exact (readU32_spells mem).bind (readU64_spells offset).bind_pure

theorem catchClause_spells {c : CatchClause} (h : CatchClause.takesTag c.kind = false → c.tag = 0) :
    Spells Reader.catchClause (Wire.catchClause c) c := by
  obtain ⟨kind, tag, label⟩ := c
  refine (Spells.byte kind).bind ?_
  cases hkind : CatchClause.takesTag kind with
  | true =>
    simp only [↓reduceIte]
    exact (readU32_spells tag).bind (readU32_spells label).bind_pure
  | false =>
    simp only [Bool.false_eq_true, ↓reduceIte, pure_bind]
    have htag : tag = 0 := h hkind
    rw [htag]
    exact (readU32_spells label).bind_pure

end Wire

namespace Reader

theorem memArg_eq_ok : Yields memArg fun arg => Spells memArg (Wire.memArg arg) arg := by
  refine .skip fun raw => ?_
  have hclear : raw &&& ~~~(0x40 : UInt32) &&& 0x40 = 0 := by
    rw [UInt32.and_assoc, UInt32.not_and_self, UInt32.and_zero]
  exact .branch (fun _ => .skip fun mem => .skip fun offset => .done (memArg_spells hclear))
    fun _ => .skip fun mem => .skip fun offset => .done (memArg_spells hclear)

theorem catchClause_tag : Yields catchClause fun clause =>
    CatchClause.takesTag clause.kind = false → clause.tag = 0 := by
  refine .skip fun kind => .branch (fun hkind => ?_) fun _ => ?_
  · exact .skip fun tag => .skip fun label => .done fun hnone => by simp [hkind] at hnone
  · exact (Yields.done (Q := (· = 0)) rfl).bind fun tag htag => .skip fun label => .done fun _ => htag

theorem catchClause_eq_ok : Yields catchClause fun clause =>
    Spells catchClause (Wire.catchClause clause) clause :=
  fun _ _ _ h => catchClause_spells (catchClause_tag h)

theorem miscImm_eq_ok : Yields miscImm (Imm.Spelled .misc) := by
  refine .skip fun sub => ?_
  cases harity : miscArity? sub with
  | none => exact .failed
  | some n =>
    refine (times_yields (P := fun _ => True) (fun _ _ _ _ => trivial) n).bind ?_
    rintro operands ⟨rfl, -⟩
    refine .done ⟨Leb128.u32 sub ++ operands.flatMap Leb128.u32, ?_, ?_⟩
    · simp [Wire.imm, Wire.miscImm, harity]
    · refine (readU32_spells sub).bind ?_
      rw [harity]
      exact (Spells.times fun a _ => readU32_spells a).bind_pure

theorem simdImm_eq_ok : Yields simdImm fun i => Spells simdImm (Wire.simdImm i) i := by
  refine .skip fun sub => ?_
  have hread {i : SimdImm} {w : Bytes} (hw : Wire.simdImm i = Leb128.u32 sub ++ w) (h : Spells _ w i) :
      Spells simdImm (Wire.simdImm i) i := hw ▸ (readU32_spells sub).bind h
  generalize SimdLayout.ofOpcode sub = layout at hread ⊢
  cases layout with
  | none => exact .done (hread (by simp [Wire.simdImm]) (.done _))
  | memory => exact memArg_eq_ok.bind fun arg h => .done (hread (by simp [Wire.simdImm]) h.bind_pure)
  | bytes =>
    exact bytes_spells_of_eq_ok.bind fun bs h => .done (hread (by simp [Wire.simdImm]) h.bind_pure)
  | lane => exact .skip fun lane => .done (hread (by simp [Wire.simdImm]) (Spells.byte lane).bind_pure)
  | memoryLane =>
    exact memArg_eq_ok.bind fun arg h => .skip fun lane => .done
      (hread (by simp [Wire.simdImm]) (h.bind (Spells.byte lane).bind_pure))

theorem atomicImm_eq_ok : Yields atomicImm (Imm.Spelled .atomic) := by
  refine .skip fun sub => .branch (fun hfence => ?_) fun hfence => ?_
  · refine .skip fun _ => .done ⟨_, rfl, (readU32_spells sub).bind ?_⟩
    simp only [hfence, ↓reduceIte]
    exact (Spells.byte 0).bind_pure
  · refine memArg_eq_ok.bind fun arg harg => .done ⟨_, rfl, (readU32_spells sub).bind ?_⟩
    simp only [hfence, ↓reduceIte]
    exact harg.bind_pure

theorem gcImm_eq_ok : Yields gcImm fun i => Spells gcImm (Wire.gcImm i) i := by
  refine .skip fun sub => ?_
  have hread {i : GcImm} {w : Bytes} (hw : Wire.gcImm i = Leb128.u32 sub ++ w) (h : Spells _ w i) :
      Spells gcImm (Wire.gcImm i) i := hw ▸ (readU32_spells sub).bind h
  generalize hlayout : GcLayout.ofOpcode? sub = layout at hread ⊢
  cases layout with
  | none => exact .failed
  | some layout =>
    cases layout with
    | none => exact .done (hread (by simp [Wire.gcImm, hlayout]) (.done _))
    | type =>
      exact .skip fun type => .done
        (hread (by simp [Wire.gcImm, hlayout]) (readU32_spells type).bind_pure)
    | typeField | typeSize | typeData | typeElem | typeType =>
      exact .skip fun first => .skip fun second => .done (hread (by simp [Wire.gcImm, hlayout])
        ((readU32_spells first).bind (readU32_spells second).bind_pure))
    | heap =>
      exact .skip fun heap => .done
        (hread (by simp [Wire.gcImm, hlayout]) (readS64_spells heap).bind_pure)
    | cast =>
      refine .skip fun castFlags => .skip fun label => .skip fun heap => .skip fun heap2 => .done ?_
      exact hread (by simp [Wire.gcImm, hlayout]) ((Spells.byte castFlags).bind
        ((readU32_spells label).bind ((readS64_spells heap).bind (readS64_spells heap2).bind_pure)))

theorem extType_plain : Yields extType fun type =>
    type.isRef = false → Spells extType [type.code] type := by
  intro c type c' h href
  have hspells := extType_eq_ok h
  cases type with
  | plain code => exact hspells
  | ref code type => cases href

theorem selectImm_eq_ok : Yields selectImm (Imm.Spelled .select) := by
  refine .skip fun n => ?_
  refine (times_yields (fun c a c' h => And.intro (extType_eq_ok h) (extType_plain h)) _).bind ?_
  rintro types ⟨hlength, hall⟩
  have hbound : types.length < 2 ^ 32 := hlength ▸ n.toNat_lt
  -- both ways of writing the types are read as the same list
  have hread : ∀ w, Spells (readU32 >>= fun n => times extType n.toNat) w types →
      Spells (imm .select) w (.select (types.map ExtType.code)
        (if types.any ExtType.isRef then types else [])) := by
    intro w hw
    have hchain := hw.bind_pure (f := fun types => Imm.select (types.map ExtType.code)
      (if types.any ExtType.isRef then types else []))
    rw [bind_assoc] at hchain
    exact hchain
  refine .done ?_
  cases hrefs : types.any ExtType.isRef with
  | true =>
    have hne : types ≠ [] := by
      rintro rfl
      cases hrefs
    rw [hrefs] at hread
    refine ⟨Wire.list Wire.extType types, by simp [Wire.imm, Wire.selectImm, hne], hread _ ?_⟩
    exact counted_spells (readU32_spells _) hbound fun type htype => (hall type htype).1
  | false =>
    rw [hrefs] at hread
    refine ⟨Wire.list (fun type => [type.code]) types, ?_, hread _ ?_⟩
    · simp [Wire.imm, Wire.selectImm, Wire.list, flatMap_map]
    · refine counted_spells (readU32_spells _) hbound fun type htype => ?_
      exact (hall type htype).2 (by simpa using any_eq_false.mp hrefs type htype)

end Reader

namespace Wire.Imm

-- Immediates of most layouts can be read again whatever their values.

theorem none_spelled : Imm.none.Spelled .none := ⟨[], rfl, .done _⟩

theorem block_spelled (type : Int32) : (Imm.block type).Spelled .block :=
  ⟨_, rfl, (readS32_spells type).map _⟩

theorem branch_spelled (label : UInt32) : (Imm.branch label).Spelled .branch :=
  ⟨_, rfl, (readU32_spells label).map _⟩

theorem call_spelled (func : UInt32) : (Imm.call func).Spelled .call :=
  ⟨_, rfl, (readU32_spells func).map _⟩

theorem callIndirect_spelled (type table : UInt32) :
    (Imm.callIndirect type table).Spelled .callIndirect :=
  ⟨_, rfl, (readU32_spells type).bind (readU32_spells table).bind_pure⟩

theorem callRef_spelled (type : UInt32) : (Imm.callRef type).Spelled .callRef :=
  ⟨_, rfl, (readU32_spells type).map _⟩

theorem localVar_spelled (index : UInt32) : (Imm.localVar index).Spelled .localVar :=
  ⟨_, rfl, (readU32_spells index).map _⟩

theorem globalVar_spelled (index : UInt32) : (Imm.globalVar index).Spelled .globalVar :=
  ⟨_, rfl, (readU32_spells index).map _⟩

theorem table_spelled (index : UInt32) : (Imm.table index).Spelled .table :=
  ⟨_, rfl, (readU32_spells index).map _⟩

theorem memIndex_spelled (index : UInt32) : (Imm.memIndex index).Spelled .memIndex :=
  ⟨_, rfl, (readU32_spells index).map _⟩

theorem i32_spelled (value : Int32) : (Imm.i32 value).Spelled .i32 :=
  ⟨_, rfl, (readS32_spells value).map _⟩

theorem i64_spelled (value : Int64) : (Imm.i64 value).Spelled .i64 :=
  ⟨_, rfl, (readS64_spells value).map _⟩

theorem f32_spelled (bits : UInt32) : (Imm.f32 bits).Spelled .f32 := by
  refine ⟨_, rfl, ?_⟩
  have hread := (Spells.wholeBytes (u32le bits)).bind_pure
    (f := fun bs => Imm.f32 (UInt32.ofNat (Reader.littleEndian bs)))
  have hlt := bits.toNat_lt
  rwa [u32le, littleEndian_length, littleEndian_littleEndian, Nat.mod_eq_of_lt (by omega),
    UInt32.ofNat_toNat] at hread

theorem f64_spelled (bits : UInt64) : (Imm.f64 bits).Spelled .f64 := by
  refine ⟨_, rfl, ?_⟩
  have hread := (Spells.wholeBytes (u64le bits)).bind_pure
    (f := fun bs => Imm.f64 (UInt64.ofNat (Reader.littleEndian bs)))
  have hlt := bits.toNat_lt
  rwa [u64le, littleEndian_length, littleEndian_littleEndian, Nat.mod_eq_of_lt (by omega),
    UInt64.ofNat_toNat] at hread

theorem refNull_spelled (heap : HeapType) : (Imm.refNull heap).Spelled .refNull :=
  ⟨_, rfl, (readS64_spells heap).map _⟩

theorem refFunc_spelled (func : UInt32) : (Imm.refFunc func).Spelled .refFunc :=
  ⟨_, rfl, (readU32_spells func).map _⟩

theorem throw_spelled (tag : UInt32) : (Imm.throw tag).Spelled .throw :=
  ⟨_, rfl, (readU32_spells tag).map _⟩

theorem brTable_spelled {labels : List UInt32} (hlength : labels.length < 2 ^ 32)
    (default : UInt32) : (Imm.brTable labels default).Spelled .brTable := by
  refine ⟨_, rfl, ?_⟩
  have hlabels : Spells (readU32 >>= fun n => times readU32 n.toNat) (list Leb128.u32 labels)
      labels := counted_spells (readU32_spells _) hlength fun a _ => readU32_spells a
  have hchain := hlabels.bind ((readU32_spells default).bind_pure (f := Imm.brTable labels))
    (f := fun labels => readU32 >>= fun default => pure (Imm.brTable labels default))
  rwa [bind_assoc] at hchain

theorem tryTable_spelled (type : Int32) {catches : List CatchClause}
    (hlength : catches.length < 2 ^ 32)
    (h : ∀ c ∈ catches, Spells Reader.catchClause (catchClause c) c) :
    (Imm.tryTable type catches).Spelled .tryTable := by
  refine ⟨_, rfl, (readS32_spells type).bind ?_⟩
  have hcatches : Spells (readU32 >>= fun n => times Reader.catchClause n.toNat)
      (list catchClause catches) catches := counted_spells (readU32_spells _) hlength h
  have hchain := hcatches.bind_pure (f := Imm.tryTable type)
  rwa [bind_assoc] at hchain

end Wire.Imm

namespace Reader

/-- Operands that were read are read as they are written. -/
theorem imm_eq_ok {layout : Layout} : Yields (imm layout) (Imm.Spelled layout) := by
  have hmap {α : Type} {p : Reader α} {g : α → Imm} (h : ∀ a, (g a).Spelled layout) :
      Yields (g <$> p) (Imm.Spelled layout) := .map fun _ a _ _ => h a
  cases layout with
  | none => exact .done Imm.none_spelled
  | block => exact hmap Imm.block_spelled
  | branch => exact hmap Imm.branch_spelled
  | brTable =>
    refine .skip fun n => (times_yields (P := fun _ => True) (fun _ _ _ _ => trivial) _).bind ?_
    exact fun labels h => .skip fun default => .done (Imm.brTable_spelled (h.1 ▸ n.toNat_lt) default)
  | call => exact hmap Imm.call_spelled
  | callIndirect => exact .skip fun type => .skip fun table => .done (Imm.callIndirect_spelled type table)
  | callRef => exact hmap Imm.callRef_spelled
  | localVar => exact hmap Imm.localVar_spelled
  | globalVar => exact hmap Imm.globalVar_spelled
  | table => exact hmap Imm.table_spelled
  | memory => exact .map fun _ _ _ h => ⟨_, rfl, (memArg_eq_ok h).map _⟩
  | memIndex => exact hmap Imm.memIndex_spelled
  | i32 => exact hmap Imm.i32_spelled
  | i64 => exact hmap Imm.i64_spelled
  | f32 => exact .skip fun bs => .done (Imm.f32_spelled _)
  | f64 => exact .skip fun bs => .done (Imm.f64_spelled _)
  | misc => exact miscImm_eq_ok
  | refNull => exact hmap Imm.refNull_spelled
  | refFunc => exact hmap Imm.refFunc_spelled
  | select => exact selectImm_eq_ok
  | simd => exact .map fun _ _ _ h => ⟨_, rfl, (simdImm_eq_ok h).map _⟩
  | atomic => exact atomicImm_eq_ok
  | gc => exact .map fun _ _ _ h => ⟨_, rfl, (gcImm_eq_ok h).map _⟩
  | throw => exact hmap Imm.throw_spelled
  | tryTable =>
    refine .skip fun type => .skip fun n => (times_yields catchClause_eq_ok _).bind fun catches h => ?_
    exact .done (Imm.tryTable_spelled type (h.1 ▸ n.toNat_lt) h.2)

theorem instr_eq_ok : Yields instr Wire.Instr.Spelled := by
  refine .skip fun op => ?_
  cases hop : Layout.ofOpcode? op with
  | none => exact .failed
  | some layout => exact imm_eq_ok.bind fun _ himm => .done (himm.instr hop)

theorem instrs_eq_ok {bound : Nat} : Yields (instrs bound) fun is => ∀ i ∈ is, i.Spelled := by
  induction bound with
  | zero => exact .done (by simp)
  | succ bound ih =>
    refine .skip fun ended => .branch (fun _ => .done (by simp)) fun _ => ?_
    exact instr_eq_ok.bind fun _ hfirst => ih.bind fun _ hrest => .done
      (forall_mem_cons.mpr ⟨hfirst, hrest⟩)

end Reader

namespace Wire

variable {is : List Instr}

theorem decodeInstrs_spelled {code : Bytes} (h : decodeInstrs code = .ok is) :
    ∀ i ∈ is, i.Spelled := by
  unfold decodeInstrs Reader.run at h
  split at h
  next found rest hread =>
    cases h
    exact instrs_eq_ok hread
  next => cases h

/-- So is code. -/
theorem instrs_spelled (h : ∀ i ∈ is, i.Spelled) :
    ∃ w, encodeInstrs is = .ok w ∧ ∀ bound pos, w.length ≤ bound →
      Reader.instrs bound ⟨w, pos⟩ = .ok is ⟨[], pos + w.length⟩ := by
  induction is with
  | nil =>
    refine ⟨[], rfl, fun bound pos _ => ?_⟩
    cases bound <;> rfl
  | cons i is ih =>
    obtain ⟨v, hv, hne, hfirst⟩ := h i (by simp)
    obtain ⟨w, hw, hrest⟩ := ih fun j hj => h j (by simp [hj])
    refine ⟨v ++ w, by simp [encodeInstrs, hv, hw], fun bound pos hbound => ?_⟩
    rw [length_append] at hbound
    have hpos := length_pos_iff.mpr hne
    cases bound with
    | zero => omega
    | succ bound =>
      refine Reader.bind_eq_ok_iff.mpr ⟨false, ⟨v ++ w, pos⟩, ?_, ?_⟩
      · simp [Reader.atEnd, hne]
      · refine Reader.bind_eq_ok_iff.mpr ⟨i, _, hfirst w pos, ?_⟩
        refine Reader.bind_eq_ok_iff.mpr ⟨is, _, hrest bound _ (by omega), ?_⟩
        rw [Reader.pure_eq_ok_iff, length_append, Nat.add_assoc]
        exact ⟨rfl, rfl⟩

theorem decodeInstrs_encodeInstrs (h : ∀ i ∈ is, i.Spelled) :
    ∃ w, encodeInstrs is = .ok w ∧ decodeInstrs w = .ok is := by
  obtain ⟨w, hw, hread⟩ := instrs_spelled h
  refine ⟨w, hw, ?_⟩
  simp [decodeInstrs, Reader.run, Cursor.start, hread w.length 0 (Nat.le_refl _)]

end Wire

end HostCatch
