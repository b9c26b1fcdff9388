import HostCatch.Proofs.Program.Recovering
import HostCatch.Proofs.Program.Shaping

namespace HostCatch

open List

/-- The type of a block can be read where there are so many types. -/
def BlockType.Readable (types : Nat) : BlockType → Prop
  | .empty => True
  | .single result => result.IsKnown
  | .multi type => type < types

theorem BlockType.Readable.mono {types types' : Nat} {t : BlockType} (h : t.Readable types)
    (htypes : types ≤ types') : t.Readable types' := by
  cases t with
  | multi => exact Nat.lt_of_lt_of_le h htypes
  | _ => exact h

namespace Instr

/-- The type that an indirect call names. -/
def calledType? : Instr → Option TypeId
  | .callIndirect type _ => some type
  | .returnCallIndirect type _ => some type
  | _ => none

/-- What is kept as it is written is kept so again. -/
def Clean : Instr → Prop
  | .raw i => i.Spelled ∧ ¬ i.Known
  | _ => True

end Instr

namespace Body

/-- The index that a local variable is written with: the last of its slots. -/
def place (b : Body) (var : LocalId) : Nat :=
  b.slots.length - 1 - b.slots.reverse.idxOf var

/-- The type of a sequence can be read where there are so many types. -/
def Opens (b : Body) (types : Nat) (id : SeqId) : Prop :=
  ∀ s, b.seqs[id]? = some s → s.type.Readable types

end Body

/-- What is written for an instruction of a body can be read, where there are so many types and local
variables. A `try` ends in one way only. -/
def Instr.Readable (b : Body) (types locals : Nat) : Instr → Prop
  | .block id => b.Opens types id
  | .loop id => b.Opens types id
  | .ifElse id _ => b.Opens types id
  | .tryTable id _ => b.Opens types id
  | .tryCatch id handlers delegate => b.Opens types id ∧ (handlers = [] ∨ delegate = none)
  | .callIndirect type _ => type < types
  | .returnCallIndirect type _ => type < types
  | .localGet var => b.place var < locals
  | .localSet var => b.place var < locals
  | .localTee var => b.place var < locals
  | _ => True

namespace Body

/-- All that is nested in a sequence can be read. -/
def ReadableFrom (b : Body) (types locals : Nat) (id : SeqId) : Prop :=
  ∀ seq index i, b.ReachesFrom id seq → b.instr? seq index = some i → i.Readable b types locals

theorem readableFrom_iff {b : Body} {types locals : Nat} {id : SeqId} {s : Seq}
    (hs : b.seqs[id]? = some s) : b.ReadableFrom types locals id ↔ ∀ i ∈ s.instrs,
      i.Readable b types locals ∧ ∀ child ∈ i.children, b.ReadableFrom types locals child := by
  constructor
  · intro h i hi
    obtain ⟨index, hindex⟩ := getElem?_of_mem hi
    rw [← instr?_of_seq hs] at hindex
    refine ⟨h id index i (.refl id) hindex, fun child hchild seq index' j hreach hj => ?_⟩
    exact h seq index' j (.step hindex hchild hreach) hj
  · intro h seq index i hreach hi
    cases hreach with
    | refl =>
      rw [instr?_of_seq hs] at hi
      exact (h i (mem_of_getElem? hi)).1
    | step hj hchild hreach =>
      rw [instr?_of_seq hs] at hj
      exact (h _ (mem_of_getElem? hj)).2 _ hchild seq index i hreach hi

/-- The numbers of a body and the types that it names fit into what they are written as. -/
structure Sized (b : Body) : Prop where
  seqs : b.seqs.length < 2 ^ 32
  slots : b.slots.length < 2 ^ 32
  types : ∀ s ∈ b.seqs, ∀ type, s.type = .multi type → type < 2 ^ 31
  calls : ∀ s ∈ b.seqs, ∀ i ∈ s.instrs, ∀ type ∈ i.calledType?, type < 2 ^ 32

end Body

variable {scope : Scope} {n : Nat}

variable {v : ValType}

theorem Scope.blockType_natCast (hsize : n < 2 ^ 31) :
    scope.blockType (Int32.ofNat n) = BlockType.multi <$> scope.check "blocktype" n scope.types := by
  have hback : (Int32.ofNat n).toInt = n := Int32.toInt_ofNat_of_lt hsize
  have hpos : 0 ≤ Int32.ofNat n := by
    rw [Int32.le_iff_toInt_le, hback]
    exact Int.natCast_nonneg n
  have hne : Int32.ofNat n ≠ -64 := by
    intro heq
    rw [heq] at hback
    have : (-64 : Int32).toInt = -64 := rfl
    omega
  rw [Scope.blockType, if_neg hne, if_pos hpos, hback, Int.toNat_natCast]

theorem Scope.blockType_ofNat (h : n < scope.types) (hsize : n < 2 ^ 31) :
    scope.blockType (Int32.ofNat n) = .ok (.multi n) := by
  rw [Scope.blockType_natCast hsize, Scope.check_of_lt h]
  rfl

theorem short_ofNat (h : n < 2 ^ 31) : -128 ≤ Int32.ofNat n := by
  rw [Int32.le_iff_toInt_le, Int32.toInt_ofNat_of_lt h]
  have hlow : (-128 : Int32).toInt = -128 := rfl
  omega

theorem toInt_code (hknown : v.IsKnown) (hcode : v.needsHeap = false) :
    (Int32.ofInt (v.code.toNat - 0x80)).toInt = v.code.toNat - 0x80 := by
  have hrange := ValType.code_range hknown hcode
  exact Int32.toInt_ofInt_of_le (by omega) (by omega)

theorem short_code (hknown : v.IsKnown) (hcode : v.needsHeap = false) :
    -128 ≤ Int32.ofInt (v.code.toNat - 0x80) := by
  have hrange := ValType.code_range hknown hcode
  have hlow : (-128 : Int32).toInt = -128 := rfl
  rw [Int32.le_iff_toInt_le, toInt_code hknown hcode]
  omega

theorem Scope.blockType_code (hknown : v.IsKnown) (hcode : v.needsHeap = false) :
    ∃ t, scope.blockType (Int32.ofInt (v.code.toNat - 0x80)) = .ok t := by
  have hread := ValType.ofExt_toExt hknown
  rw [ValType.toExt_of_plain hcode, ValType.ofExt] at hread
  have hrange := ValType.code_range hknown hcode
  have hback := toInt_code hknown hcode
  have hneg : ¬ 0 ≤ Int32.ofInt (v.code.toNat - 0x80) := by
    rw [Int32.le_iff_toInt_le, hback]
    simp only [Int32.toInt_zero]
    omega
  have hsame : UInt8.ofNat ((v.code.toNat - 0x80 + 0x80 : Int) % 0x100).toNat = v.code := by
    have hsum : ((v.code.toNat - 0x80 + 0x80 : Int) % 0x100).toNat = v.code.toNat := by omega
    rw [hsum, UInt8.ofNat_toNat]
  unfold Scope.blockType
  by_cases hempty : Int32.ofInt (v.code.toNat - 0x80) = -64
  · exact ⟨.empty, if_pos hempty⟩
  · rw [if_neg hempty, if_neg hneg, hback, hsame, Scope.restate_ok hread]
    exact ⟨.single v, rfl⟩

theorem Scope.blockType_code_iff (hcode : v.needsHeap = false) :
    (∃ t, scope.blockType (Int32.ofInt (v.code.toNat - 0x80)) = .ok t) ↔ v.IsKnown := by
  refine ⟨?_, fun hknown => blockType_code hknown hcode⟩
  rintro ⟨t, ht⟩ number rfl
  cases ht

/-- The number of a type of a block can be read, if the type can. -/
theorem BlockType.Numbered.reads_iff {types : List Signature} {type : BlockType} {k : Int32}
    (h : type.Numbered types k) (hroom : types.length ≤ scope.types) (hsize : scope.types < 2 ^ 31)
    (hid : ∀ id, type = .multi id → id < 2 ^ 31) :
    (∃ t, scope.blockType k = .ok t) ↔ type.Readable scope.types := by
  cases h with
  | empty => exact ⟨fun _ => trivial, fun _ => ⟨.empty, rfl⟩⟩
  | multi id =>
    have hid := hid id rfl
    rw [Reader.toNat_ofNat_size (hid.trans (by decide))]
    refine ⟨?_, fun hlt => ⟨_, Scope.blockType_ofNat hlt hid⟩⟩
    rintro ⟨t, ht⟩
    rw [show Int32.ofInt (id : Int) = Int32.ofNat id from rfl, Scope.blockType_natCast hid] at ht
    obtain ⟨_, hcheck, -⟩ := map_eq_ok_iff.mp ht
    exact (Scope.check_eq_ok hcheck).2
  | code hcode => exact Scope.blockType_code_iff hcode
  | first hheap hget _ =>
    have hlt := (List.getElem?_eq_some_iff.mp hget).1
    refine ⟨?_, fun _ => ⟨_, Scope.blockType_ofNat (by omega) (by omega)⟩⟩
    rintro - number rfl
    cases hheap

namespace Emitting

open Emit

variable {w : Emitting} {types : List Signature} {k : Int32} {labels : List SeqId}

/-- What is written for one of the entities that a body names is read as one of them. -/
structure Meets (w : Emitting) (scope : Scope) : Prop where
  func : ∀ f k, w.funcIndex f = .ok k → k.toNat < scope.funcs
  table : ∀ t k, w.numbering.table t = .ok k → k.toNat < scope.tables
  tag : ∀ t k, w.numbering.tag t = .ok k → k.toNat < scope.tags
  slots : w.slots = w.body.slots
  size : w.slots.length < 2 ^ 32

theorem exists_label_of_depth (hlabels : labels.length ≤ 2 ^ 32) {target : SeqId} {k : UInt32}
    (h : w.depth labels target = .ok k) {frames : List Frame} (hframes : frames.length = labels.length) :
    ∃ id, scope.label frames k = .ok id := by
  obtain ⟨n, rfl, hget⟩ := depth_eq_ok h
  have hlt := (List.getElem?_eq_some_iff.mp hget).1
  unfold Scope.label
  rw [Reader.toNat_ofNat_size (by omega), List.getElem?_eq_getElem (hframes ▸ hlt)]
  exact ⟨_, rfl⟩

theorem slot_toNat (hw : w.Meets scope) {var : LocalId} {k : UInt32} (h : w.slot var = .ok k) :
    k.toNat = w.body.place var := by
  unfold slot at h
  split at h
  next n hn =>
    cases h
    have hplace : w.body.slots.reverse.idxOf var = n := by
      rw [← hw.slots]
      exact (findIdx?_eq_some_iff_findIdx_eq.mp hn).2
    rw [Body.place, hplace, ← hw.slots]
    exact Reader.toNat_ofNat_size (by have := hw.size; omega)
  next => cases h

theorem localRef_of_slot (hw : w.Meets scope) {var : LocalId} {k : UInt32}
    (hk : w.slot var = .ok k) :
    (w.body.place var < scope.locals.length → ∃ id, scope.localRef k = .ok id) ∧
      (¬ w.body.place var < scope.locals.length → ∃ fault, scope.localRef k = .error fault) := by
  rw [← slot_toNat hw hk]
  unfold Scope.localRef
  constructor
  · intro hlt
    rw [getElem?_eq_getElem hlt]
    exact ⟨_, rfl⟩
  · intro hge
    rw [getElem?_eq_none (Nat.le_of_not_lt hge), Scope.check, if_neg hge]
    exact ⟨_, rfl⟩

theorem check_ofNat {type : TypeId} (htype : type < 2 ^ 32) (what : String) :
    (type < scope.types → scope.check what (UInt32.ofNat type).toNat scope.types = .ok type) ∧
      (¬ type < scope.types → ∃ fault,
        scope.check what (UInt32.ofNat type).toNat scope.types = .error fault) := by
  rw [Reader.toNat_ofNat_size htype]
  exact ⟨Scope.check_of_lt, fun hge => ⟨_, if_neg hge⟩⟩

variable (hw : w.Meets scope) (hlabels : labels.length ≤ 2 ^ 32) (hpos : 0 < labels.length)

include hlabels hpos

theorem brTable_recovers {targets : List SeqId} {ks : List UInt32} {last : SeqId} {k : UInt32}
    (hks : Forall₂ (fun target k => w.depth labels target = .ok k) targets ks)
    (hk : w.depth labels last = .ok k) :
    Reading.Recovers scope labels.length True [⟨0x0E, .brTable ks k⟩] := by
  refine .plain (Wire.brTable_spellable ks k) hpos fun frames hframes => ?_
  obtain ⟨id, hid⟩ := exists_label_of_depth hlabels hk hframes
  obtain ⟨ids, hids⟩ : ∃ ids, Forall₂ (fun k id => scope.label frames k = .ok id) ks ids := by
    refine exists_forall₂ fun k hmem => ?_
    obtain ⟨target, -, htarget⟩ := forall₂_mem_right hks hmem
    exact exists_label_of_depth hlabels htarget hframes
  exact ⟨_, .brTable (mapM_eq_ok_iff.mpr hids) hid⟩

include hw

/-- What is written for an instruction that contains no sequence is read again, unless it names a type
or a variable that is not there. -/
theorem Stands.recovers {i : Instr} (hclean : i.Clean)
    (hcalls : ∀ type ∈ i.calledType?, type < 2 ^ 32) {x : Wire.Instr} (h : w.Stands labels i x) :
    Reading.Recovers scope labels.length (i.Readable w.body scope.types scope.locals.length) [x] := by
  cases h with
  | @br _ k hk | @brIf _ k hk =>
    refine .plain ((Wire.Imm.branch_spelled k).instr rfl).spellable hpos fun frames hframes => ?_
    obtain ⟨id, hid⟩ := exists_label_of_depth hlabels hk hframes
    exact ⟨_, by constructor; exact hid⟩
  | brTable hks hk => exact brTable_recovers hlabels hpos hks hk
  | @call func k hk | @returnCall func k hk =>
    refine .plain ((Wire.Imm.call_spelled k).instr rfl).spellable hpos fun _ _ => ?_
    exact ⟨_, by constructor; exact Scope.check_of_lt (hw.func func k hk)⟩
  | @refFunc func k hk =>
    refine .plain ((Wire.Imm.refFunc_spelled k).instr rfl).spellable hpos fun _ _ => ?_
    exact ⟨_, .refFunc (Scope.check_of_lt (hw.func func k hk))⟩
  | @callIndirect type table k hk | @returnCallIndirect type table k hk =>
    have htable : scope.tableRef k = .ok k.toNat := Scope.check_of_lt (hw.table table k hk)
    refine .lookup ((Wire.Imm.callIndirect_spelled _ k).instr rfl).spellable hpos
      (fun _ _ _ => ⟨_, rfl⟩) (fun hlt _ _ => ?_) (check_ofNat (hcalls type rfl) _).2
    have htype := (check_ofNat (hcalls type rfl) "call_indirect").1 hlt
    exact ⟨_, by constructor <;> assumption⟩
  | @localGet _ k hk | @localSet _ k hk | @localTee _ k hk =>
    refine .lookup ((Wire.Imm.localVar_spelled k).instr rfl).spellable hpos
      (fun _ _ _ => ⟨_, rfl⟩) (fun hlt _ _ => ?_) (localRef_of_slot hw hk).2
    obtain ⟨id, hid⟩ := (localRef_of_slot hw hk).1 hlt
    exact ⟨_, by constructor; exact hid⟩
  | @tableGet table k hk | @tableSet table k hk =>
    refine .plain ((Wire.Imm.table_spelled k).instr rfl).spellable hpos fun _ _ => ?_
    exact ⟨_, by constructor; exact Scope.check_of_lt (hw.table table k hk)⟩
  | @throw tag k hk =>
    refine .plain ((Wire.Imm.throw_spelled k).instr rfl).spellable hpos fun _ _ => ?_
    exact ⟨_, .throw (Scope.check_of_lt (hw.tag tag k hk))⟩
  | i32 value =>
    exact .plain ((Wire.Imm.i32_spelled value).instr rfl).spellable hpos fun _ _ => ⟨_, .i32 value⟩
  | i64 value =>
    exact .plain ((Wire.Imm.i64_spelled value).instr rfl).spellable hpos fun _ _ => ⟨_, .i64 value⟩
  | f32 bits =>
    exact .plain ((Wire.Imm.f32_spelled bits).instr rfl).spellable hpos fun _ _ => ⟨_, .f32 bits⟩
  | f64 bits =>
    exact .plain ((Wire.Imm.f64_spelled bits).instr rfl).spellable hpos fun _ _ => ⟨_, .f64 bits⟩
  | refNull =>
    exact .plain ((Wire.Imm.refNull_spelled _).instr rfl).spellable hpos fun _ _ => ⟨_, .refNull _⟩
  | ret => exact .plain (Wire.Imm.none_spelled.instr rfl).spellable hpos fun _ _ => ⟨_, .ret .none⟩
  | unreachable =>
    exact .plain (Wire.Imm.none_spelled.instr rfl).spellable hpos fun _ _ => ⟨_, .unreachable .none⟩
  | raw => exact .plain hclean.1.spellable hpos fun _ _ => ⟨_, .raw hclean.2⟩

omit hpos

theorem catches_recover {clauses : List Clause} {catches : List Wire.CatchClause}
    (h : Forall₂ (w.Directs labels) clauses catches) {frames : List Frame}
    (hframes : frames.length = labels.length) :
    ∃ found, catches.mapM (scope.clause frames) = .ok found := by
  have hread : ∀ c ∈ catches, ∃ clause, scope.clause frames c = .ok clause := by
    intro c hc
    obtain ⟨clause, -, hclause⟩ := forall₂_mem_right h hc
    obtain ⟨id, hid⟩ := exists_label_of_depth hlabels hclause.label hframes
    unfold Scope.clause
    rw [hid, ok_bind]
    dsimp only
    split
    next htakes =>
      rw [Scope.tagRef, Scope.check_of_lt (hw.tag _ _ (hclause.tag (hclause.kind ▸ htakes)))]
      exact ⟨_, rfl⟩
    next => exact ⟨_, rfl⟩
  obtain ⟨found, hfound⟩ := exists_forall₂ hread
  exact ⟨found, mapM_eq_ok_iff.mpr hfound⟩

omit hw hlabels

section Code

open Reading

variable (hroom : types.length ≤ scope.types) (hsize : scope.types < 2 ^ 31)

include hroom hsize

theorem Opened.opens {id : SeqId} (h : w.Opened types id k) (hsized : w.body.Sized) :
    (∃ t, scope.blockType k = .ok t) ↔ w.body.Opens scope.types id := by
  obtain ⟨s, hs, htype⟩ := h
  rw [htype.reads_iff hroom hsize (hsized.types s (mem_of_getElem? hs))]
  refine ⟨fun hread t ht => ?_, fun hopens => hopens s hs⟩
  cases hs.symm.trans ht
  exact hread

omit hroom hsize in
theorem Opening.catches (hw : w.Meets scope) {tag : Option TagId} {first : Wire.Instr}
    (h : w.Opening tag first) : first.Spellable ∧ ∃ found, scope.Catches first found := by
  cases h with
  | all => exact ⟨(Wire.Imm.none_spelled.instr rfl).spellable, none, .all .none⟩
  | @tag tag k htag =>
    exact ⟨((Wire.Imm.throw_spelled k).instr rfl).spellable, _,
      .tag (Scope.check_of_lt (hw.tag tag k htag))⟩

/-- One instruction: its code can be read exactly if it is readable. -/
theorem Shapes.recovers {N : SeqId → List Wire.Instr → Prop} {i : Instr} {part : List Wire.Instr}
    (h : w.Shapes types N labels i part) (hw : w.Meets scope) (hsized : w.body.Sized)
    (hlabels : labels.length ≤ 2 ^ 32) (hpos : 0 < labels.length) (hclean : i.Clean)
    (hcalls : ∀ type ∈ i.calledType?, type < 2 ^ 32) {ok : SeqId → Prop}
    (hempty : ∀ id s, w.body.seqs[id]? = some s → s.instrs = [] → ok id)
    (hnested : ∀ id ws, N id ws → Recovers scope (labels.length + 1) (ok id) ws) :
    Recovers scope labels.length
      (i.Readable w.body scope.types scope.locals.length ∧ ∀ child ∈ i.children, ok child) part := by
  have hone {id : SeqId} {k : Int32} (hopened : w.Opened types id k) :
      (∃ t, scope.blockType k = .ok t) ∧ ok id ↔
        w.body.Opens scope.types id ∧ ∀ child ∈ [id], ok child := by
    rw [hopened.opens hroom hsize hsized, forall_mem_singleton]
  have hif {consequent alternative : SeqId} {k : Int32} {first second : List Wire.Instr}
      (hopened : w.Opened types consequent k) (hfirst : N consequent first)
      (hsecond : (second = [] ∧ ok alternative) ∨ ∃ inner, second = ⟨0x05, .none⟩ :: inner ∧
        Recovers scope (labels.length + 1) (ok alternative) inner) :
      Recovers scope labels.length (w.body.Opens scope.types consequent ∧
        ∀ child ∈ [consequent, alternative], ok child)
        (⟨0x04, .block k⟩ :: (first ++ (second ++ [close]))) := by
    refine (Recovers.ifElse hpos (hnested _ _ hfirst) hsecond).congr ?_
    rw [hopened.opens hroom hsize hsized, forall_mem_cons, forall_mem_singleton]
  cases h with
  | plain hx =>
    refine (hx.recovers hw hlabels hpos hclean hcalls).congr ?_
    rw [hx.children, and_iff_left (forall_mem_nil _)]
  | block hopened hws =>
    exact (Recovers.construct hpos (fun _ _ _ => .block) fun _ _ hframes _ =>
      (hnested _ _ hws).closed hframes).congr (hone hopened)
  | loop hopened hws =>
    exact (Recovers.construct hpos (fun _ _ _ => .loop) fun _ _ hframes _ =>
      (hnested _ _ hws).closed hframes).congr (hone hopened)
  | ifEmpty hopened hfirst hs hnil => exact hif hopened hfirst (.inl ⟨rfl, hempty _ _ hs hnil⟩)
  | ifElse hopened hfirst hsecond =>
    rw [append_assoc, cons_append]
    exact hif hopened hfirst (.inr ⟨_, rfl, hnested _ _ hsecond⟩)
  | @tryCatch _ handlers _ _ parts delegate hopened hws hparts =>
    have hparts : Forall₂ (fun (h : Handler) part =>
        Catching scope (labels.length + 1) (ok h.seq) part) handlers parts := by
      refine hparts.imp ?_
      rintro h part ⟨first, inner, hfirst, hinner, rfl⟩
      obtain ⟨hspelled, found, hfound⟩ := hfirst.catches hw
      exact ⟨first, inner, found, rfl, hspelled, hfound, hnested _ _ hinner⟩
    simp only [Instr.Readable, Instr.children, forall_mem_cons, forall_mem_map,
      append_assoc, cons_append, ← hopened.opens hroom hsize hsized]
    cases delegate with
    | none =>
      refine (Recovers.tryCatch_closed hpos (hnested _ _ hws) hparts).congr ?_
      rw [eq_self_iff_true, or_true, and_true]
    | some depth =>
      refine (Recovers.tryCatch_delegated hpos (hnested _ _ hws) hparts depth).congr ?_
      rw [or_iff_left (Option.some_ne_none depth)]
      tauto
  | @tryTable _ _ _ catches _ hopened hcatches hws =>
    have hbare : ∀ c ∈ catches, Wire.CatchClause.takesTag c.kind = false → c.tag = 0 := by
      intro c hc hnone
      obtain ⟨clause, -, hclause⟩ := forall₂_mem_right hcatches hc
      exact hclause.bare (hclause.kind ▸ hnone)
    exact (Recovers.construct hpos
      (fun _ _ houter => .tryTable hbare (catches_recover hw hlabels hcatches houter))
      fun _ _ hframes _ => (hnested _ _ hws).closed hframes).congr (hone hopened)

/-- What is written for a sequence is read again, if all that is nested in it is readable. -/
theorem Codes.recovers (hw : w.Meets scope) (hsized : w.body.Sized)
    (hclean : ∀ s ∈ w.body.seqs, ∀ i ∈ s.instrs, i.Clean) {bound : Nat} {id : SeqId}
    {ws : List Wire.Instr} (h : w.Codes types bound labels id ws)
    (hbound : labels.length + bound ≤ 2 ^ 32 + 1) (hpos : 0 < labels.length) :
    Recovers scope labels.length (w.body.ReadableFrom scope.types scope.locals.length id) ws := by
  induction bound generalizing labels id ws with
  | zero => exact h.elim
  | succ bound ih =>
    obtain ⟨s, parts, hs, hparts, rfl⟩ := h
    have hmem := mem_of_getElem? hs
    have hempty : ∀ id s, w.body.seqs[id]? = some s → s.instrs = [] →
        w.body.ReadableFrom scope.types scope.locals.length id := by
      intro id s hs hnil
      rw [Body.readableFrom_iff hs, hnil]
      exact forall_mem_nil _
    have hdeeper : ∀ inner : SeqId, (inner :: labels).length + bound ≤ 2 ^ 32 + 1 := by
      intro inner
      rw [length_cons]
      omega
    rw [Body.readableFrom_iff hs]
    refine Recovers.flatten (((forall₂_and_left _ _).mpr ⟨fun i hi => hi, hparts⟩).imp ?_)
    rintro i part ⟨hi, hpart⟩
    exact hpart.recovers hroom hsize hw hsized (by omega) hpos (hclean s hmem i hi) (hsized.calls s hmem i hi) hempty
      fun inner ws hws => ih hws (hdeeper inner) (length_pos_of_mem mem_cons_self)

end Code

end Emitting

end HostCatch
