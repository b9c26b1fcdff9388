import HostCatch.Proofs.Wire.Types
import HostCatch.Wire.Section.Entities
import Mathlib.Data.List.TakeDrop
import Mathlib.Data.List.TakeWhile

namespace HostCatch

open List

namespace Reader

variable {α β : Type}

/-- What is written for `a` is read as `a`, as long as the format can say how long it is. -/
def Spelled (p : Reader α) (write : α → Bytes) (a : α) : Prop :=
  (write a).length < 2 ^ 32 → Spells p (write a) a

theorem counted_spelled {count : Reader UInt32} (hcount : ∀ n, Spells count (Leb128.u32 n) n)
    {p : Reader α} {write : α → Bytes} {as : List α} (h : ∀ a ∈ as, Spelled p write a)
    (hp : ∀ a, p ⟨[], 0⟩ ≠ .ok a ⟨[], 0⟩) :
    Spelled (count >>= fun n => times p n.toNat) (Wire.list write) as := by
  have hne : ∀ a ∈ as, write a ≠ [] := by
    intro a ha hnil
    have hread := h a ha (by simp [hnil])
    rw [hnil] at hread
    exact hp a (hread [] 0)
  intro hlength
  refine counted_spells (hcount _) (length_lt_of_list hne hlength) fun a ha => h a ha ?_
  have hle := length_le_of_mem write ha
  simp only [Wire.list, length_append] at hlength
  omega

theorem list_spelled {p : Reader α} {write : α → Bytes} {as : List α}
    (h : ∀ a ∈ as, Spelled p write a) (hp : ∀ a, p ⟨[], 0⟩ ≠ .ok a ⟨[], 0⟩) :
    Spelled (list p) (Wire.list write) as :=
  counted_spelled u32_spells h hp

theorem name_spelled (s : String) : Spelled name Wire.name s := by
  intro hlength
  simp only [Wire.name, length_append] at hlength
  exact name_spells (by omega)

end Reader

namespace Wire

open Reader

/-- A number of limits as their bytes hold it. -/
def Limits.held (l : Limits) (n : UInt64) : UInt64 :=
  if l.memory64 then n else n.toUInt32.toUInt64

/-- The limits that the bytes of limits stand for. -/
def Limits.stored (l : Limits) : Limits :=
  { l with min := l.held l.min, max := l.max.map l.held }

/-- Limits that their bytes can hold, and in order. -/
structure Limits.Proper (l : Limits) : Prop where
  stored : l.stored = l
  ordered : ∀ max ∈ l.max, ¬ max < l.min

theorem held_spells (l : Limits) (n : UInt64) :
    Spells (if l.memory64 then u64 else UInt32.toUInt64 <$> u32)
      (if l.memory64 then Leb128.u64 n else Leb128.u32 n.toUInt32) (l.held n) := by
  unfold Limits.held
  cases l.memory64 with
  | true => exact u64_spells n
  | false => exact (u32_spells n.toUInt32).map UInt32.toUInt64

theorem limitFlags_eq (bounded shared memory64 : Bool) :
    let flags : UInt8 := (if bounded then 0x01 else 0) ||| (if shared then 0x02 else 0) |||
      (if memory64 then 0x04 else 0)
    (flags &&& 0x04 ≠ 0 ↔ memory64 = true) ∧ (flags &&& 0x01 ≠ 0 ↔ bounded = true) ∧
      (flags &&& 0x02 ≠ 0 ↔ shared = true) := by
  cases bounded <;> cases shared <;> cases memory64 <;> decide

theorem limits_spells {l : Limits} (h : l.Proper) : Spells Reader.limits (limits l) l := by
  have hordered : ∀ max ∈ l.stored.max, ¬ max < l.stored.min := h.stored.symm ▸ h.ordered
  suffices Spells Reader.limits (limits l) l.stored by rwa [h.stored] at this
  obtain ⟨hwide, hmax, hshared⟩ := limitFlags_eq l.max.isSome l.shared l.memory64
  refine (Spells.byte _).bind ?_
  simp only [hwide, hmax, hshared, Bool.decide_eq_true]
  refine (held_spells l l.min).bind ?_
  unfold Limits.stored at hordered ⊢
  cases hmost : l.max with
  | none =>
    simp only [Option.isSome_none, Bool.false_eq_true, ↓reduceIte, pure_bind]
    exact .done _
  | some most =>
    rw [hmost] at hordered
    simp only [Option.isSome_some, ↓reduceIte]
    refine ((held_spells l most).map some).bind_nil ?_
    simp only [if_neg (hordered _ rfl)]
    exact .done _

end Wire

namespace Reader

open Wire

theorem limits_eq_ok : Yields limits Limits.Proper := by
  refine .skip fun flags => ?_
  dsimp only
  generalize decide (flags &&& 0x04 ≠ 0) = wide
  have hbound : Yields (if wide then u64 else UInt32.toUInt64 <$> u32)
      fun n => (if wide then n else n.toUInt32.toUInt64) = n := by
    cases wide with
    | true => exact fun _ _ _ _ => rfl
    | false => exact .map fun _ _ _ _ => by simp
  have hmax : Yields (some <$> if wide then u64 else UInt32.toUInt64 <$> u32)
      fun max => max.map (fun n => if wide then n else n.toUInt32.toUInt64) = max :=
    .map fun _ _ _ h => congrArg some (hbound h)
  have hheld (min : UInt64) (max : Option UInt64) (shared : Bool)
      (hmin : (if wide then min else min.toUInt32.toUInt64) = min)
      (hmax : max.map (fun n => if wide then n else n.toUInt32.toUInt64) = max) :
      Limits.stored ⟨min, max, shared, wide⟩ = ⟨min, max, shared, wide⟩ :=
    congrArg₂ (Limits.mk · · shared wide) hmin hmax
  refine hbound.bind fun min hmin => .branch (fun _ => ?_) fun _ => .done ⟨hheld _ _ _ hmin rfl, by simp⟩
  refine hmax.bind fun max hmax => ?_
  cases max with
  | none => exact .done ⟨hheld _ _ _ hmin hmax, by simp⟩
  | some most => exact .refuse fun hle => .done ⟨hheld _ _ _ hmin hmax, by rintro _ ⟨⟩; exact hle⟩

theorem rawGroups_spells {more : Bytes} {last : UInt8} (hmore : ∀ b ∈ more, 0x80 ≤ b)
    (hlast : ¬ 0x80 ≤ last) : Spells rawGroups (more ++ [last]) (more ++ [last]) := by
  intro rest pos
  have hspan : (more ++ [last] ++ rest).span (0x80 ≤ ·) = (more, last :: rest) := by
    rw [span_eq_takeWhile_dropWhile, append_assoc, singleton_append,
      takeWhile_append_of_pos (by simpa using hmore),
      dropWhile_append_of_pos (by simpa using hmore),
      takeWhile_cons_of_neg (by simpa using hlast),
      dropWhile_cons_of_neg (by simpa using hlast), append_nil]
  simp only [rawGroups, hspan, length_append, length_singleton, Nat.add_assoc]

theorem rawGroups_split : Yields rawGroups fun w =>
    ∃ more last, w = more ++ [last] ∧ (∀ b ∈ more, 0x80 ≤ b) ∧ ¬ 0x80 ≤ last := by
  intro c w c' h
  unfold rawGroups at h
  rw [span_eq_takeWhile_dropWhile] at h
  dsimp only at h
  split at h
  next => cases h
  next last rest hrest =>
    cases h
    refine ⟨_, last, rfl, fun b hb => by simpa using mem_takeWhile_imp hb, ?_⟩
    have hlast := head?_dropWhile_not (fun b : UInt8 => decide (0x80 ≤ b)) c.rest
    rw [hrest] at hlast
    simpa using hlast

theorem rawGroups_eq_ok : Yields rawGroups fun w => Spells rawGroups w w := by
  intro c w c' h
  obtain ⟨more, last, rfl, hmore, hlast⟩ := rawGroups_split h
  exact rawGroups_spells hmore hlast

theorem constImm_eq_ok {op : UInt8} : Yields (constImm op) fun w => Spells (constImm op) w w := by
  unfold constImm
  split
  next => exact rawGroups_eq_ok
  split
  next => exact bytes_spells_of_eq_ok
  split
  next => exact bytes_spells_of_eq_ok
  split
  next =>
    refine .skip fun sub => ?_
    by_cases hsub : sub = 0x0C
    · rw [if_pos hsub]
      refine bytes_spells_of_eq_ok.bind fun operand hoperand => .done ((u32_spells sub).bind ?_)
      rw [if_pos hsub]
      exact hoperand.bind_pure
    · rw [if_neg hsub]
      refine .done ((u32_spells sub).bind ?_)
      rw [if_neg hsub]
      exact .done _
  split
  next =>
    refine .skip fun sub => (times_yields rawGroups_eq_ok _).bind fun operands hoperands => .done ?_
    have hread : Spells _ (operands.flatMap id) operands := .times hoperands.2
    rw [hoperands.1, flatMap_id] at hread
    exact (u32_spells sub).bind hread.bind_pure
  next => exact .done (.done [])

theorem constExprWithin_eq_ok {bound : Nat} {c c' : Cursor} {w : Bytes}
    (h : constExprWithin bound c = .ok w c') :
    w ≠ [] ∧ ∀ bound', w.length ≤ bound' → Spells (constExprWithin bound') w w := by
  induction bound generalizing c c' w with
  | zero => exact absurd h throw_ne_ok
  | succ bound ih =>
    obtain ⟨op, d, -, h⟩ := of_bind h
    split at h
    next hop =>
      cases h
      refine ⟨by simp, fun bound' hbound => ?_⟩
      obtain ⟨bound', rfl⟩ := Nat.exists_eq_succ_of_ne_zero (Nat.ne_of_gt hbound)
      refine (Spells.byte op).bind_nil ?_
      simp only [hop, ↓reduceIte]
      exact .done _
    next hop =>
      obtain ⟨imm, e, himm, h⟩ := of_bind h
      obtain ⟨rest, f, hrest, h⟩ := of_bind h
      cases h
      obtain ⟨-, hrest⟩ := ih hrest
      refine ⟨by simp, fun bound' hbound => ?_⟩
      simp only [length_cons, length_append] at hbound
      obtain ⟨bound', rfl⟩ := Nat.exists_eq_succ_of_ne_zero (show bound' ≠ 0 by omega)
      have hread : Spells (constExprWithin (bound' + 1)) ([op] ++ (imm ++ rest))
          (op :: (imm ++ rest)) := by
        refine (Spells.byte op).bind ?_
        simp only [hop, ↓reduceIte]
        exact (constImm_eq_ok himm).bind (hrest bound' (by omega)).bind_pure
      exact hread

theorem constExpr_eq_ok : Yields constExpr fun w => w ≠ [] ∧ Spells constExpr w w := by
  intro c w c' h
  obtain ⟨hne, hread⟩ := constExprWithin_eq_ok h
  refine ⟨hne, fun rest pos => hread _ ?_ rest pos⟩
  simp

end Reader

namespace Wire

open Reader

/-- A table type that can be told from others by its bytes. -/
structure TableType.Proper (t : TableType) : Prop where
  coded : RefCoded t.elem t.ref
  unmarked : t.init = [] → t.elem ≠ 0x40
  limits : t.limits.Proper
  init : t.init ≠ [] → Spells constExpr t.init t.init

theorem tableType_spells {t : TableType} (h : t.Proper) :
    Spells Reader.tableType (tableType t) t := by
  obtain ⟨⟨w, hw, href⟩, hunmarked, hlimits, hinit⟩ := h
  unfold tableType Reader.tableType
  rw [hw]
  split
  next hnone =>
    obtain ⟨elem, ref, limits, init⟩ := t
    obtain rfl : init = [] := hnone
    refine Spells.bind (v := [elem]) (w := w ++ _) (.byte elem) ?_
    rw [if_neg (hunmarked rfl)]
    exact href.bind (limits_spells hlimits).bind_pure
  next hsome =>
    simp only [append_assoc]
    refine Spells.bind (v := [0x40]) (.byte 0x40) ?_
    rw [if_pos rfl]
    refine Spells.bind (v := [0x00]) (.byte 0x00) ?_
    rw [if_neg (by decide)]
    refine Spells.bind (v := [t.elem]) (.byte t.elem) ?_
    exact href.bind ((limits_spells hlimits).bind (hinit hsome).bind_pure)

def GlobalType.Coded (g : GlobalType) : Prop :=
  ExtCoded g.val g.ext

theorem globalType_spells {g : GlobalType} (h : g.Coded) :
    Spells Reader.globalType (globalType g) g := by
  obtain ⟨w, hw, hext⟩ := h
  unfold globalType
  rw [hw]
  refine Spells.bind (v := [g.val]) (.byte g.val) (hext.bind ?_)
  have hflag : ∀ b : Bool, ((if b then 1 else 0 : UInt8) ≠ 0 : Bool) = b := by decide
  have hread := (Spells.byte (if g.mutable then 1 else 0)).bind_pure
    (f := fun b => (⟨g.val, g.ext, b ≠ 0⟩ : GlobalType))
  rw [hflag] at hread
  exact hread

theorem tagType_spells (t : TagType) : Spells Reader.tagType (tagType t) t :=
  Spells.bind (v := [t.attr]) (.byte t.attr) (u32_spells t.type).bind_pure

/-- What an import asks for is there and can be told by its bytes. -/
def ImportDesc.Proper : ImportDesc → Prop
  | func _ => True
  | table (some t) => t.Proper
  | memory (some l) => l.Proper
  | global (some g) => g.Coded
  | tag (some _) => True
  | _ => False

/-- A proper description of an import is read as it is written. -/
theorem importDesc_spells {d : ImportDesc} (h : d.Proper) :
    ∃ w, importDesc d = d.kind :: w ∧ Spells (Reader.importDesc d.kind) w d := by
  cases d with
  | func type => exact ⟨Leb128.u32 type, rfl, (u32_spells type).map ImportDesc.func⟩
  | table t =>
    cases t with
    | none => exact h.elim
    | some t => exact ⟨tableType t, rfl, (tableType_spells h).map fun t => ImportDesc.table (some t)⟩
  | memory l =>
    cases l with
    | none => exact h.elim
    | some l => exact ⟨limits l, rfl, (limits_spells h).map fun l => ImportDesc.memory (some l)⟩
  | global g =>
    cases g with
    | none => exact h.elim
    | some g =>
      exact ⟨globalType g, rfl, (globalType_spells h).map fun g => ImportDesc.global (some g)⟩
  | tag t =>
    cases t with
    | none => exact h.elim
    | some t => exact ⟨tagType t, rfl, (tagType_spells t).map fun t => ImportDesc.tag (some t)⟩
  | other kind type => exact h.elim

theorem importEntry_spelled {i : Import} (h : i.desc.Proper) :
    Spelled Reader.importEntry importEntry i := by
  obtain ⟨w, hw, hdesc⟩ := importDesc_spells h
  intro hlength
  unfold importEntry at hlength ⊢
  simp only [hw, append_assoc, length_append] at hlength ⊢
  refine (name_spelled i.module (by omega)).bind ((name_spelled i.name (by omega)).bind ?_)
  exact Spells.bind (v := [i.desc.kind]) (.byte i.desc.kind) hdesc.bind_pure

theorem exportEntry_spelled {e : Export} (h : ¬ EntityCode.tag < e.kind) :
    Spelled Reader.exportEntry exportEntry e := by
  intro hlength
  unfold exportEntry at hlength ⊢
  simp only [length_append] at hlength
  refine (name_spelled e.name (by omega)).bind ?_
  refine Spells.bind (v := [e.kind]) (.byte e.kind) ?_
  simp only [if_neg h]
  exact (u32_spells e.index).bind_pure

structure Global.Proper (g : Global) : Prop where
  type : g.type.Coded
  init : Spells constExpr g.init g.init

theorem globalEntry_spells {g : Global} (h : g.Proper) :
    Spells Reader.globalEntry (globalEntry g) g :=
  (globalType_spells h.type).bind h.init.bind_pure

end Wire

namespace Reader

open Wire

theorem tableType_eq_ok : Yields tableType TableType.Proper := by
  refine .skip fun first => .branch (fun _ => ?_) fun hfirst => ?_
  · refine .skip fun zero => .refuse fun _ => .skip fun elem => ?_
    refine refAfter_eq_ok.bind fun ref href => limits_eq_ok.bind fun bounds hbounds => ?_
    refine constExpr_eq_ok.bind fun init hinit => .done ?_
    exact ⟨href, fun hnone => absurd hnone hinit.1, hbounds, fun _ => hinit.2⟩
  · refine refAfter_eq_ok.bind fun ref href => limits_eq_ok.bind fun bounds hbounds => .done ?_
    exact ⟨href, fun _ => hfirst, hbounds, fun hne => absurd rfl hne⟩

theorem globalType_eq_ok : Yields globalType GlobalType.Coded :=
  .skip fun _ => extAfter_eq_ok.bind fun _ hext => .skip fun _ => .done hext

theorem importDesc_eq_ok {kind : UInt8} : Yields (importDesc kind) ImportDesc.Proper := by
  refine .branch (fun _ => .map fun _ _ _ _ => trivial) fun _ => ?_
  refine .branch (fun _ => .map tableType_eq_ok) fun _ => ?_
  refine .branch (fun _ => .map limits_eq_ok) fun _ => ?_
  refine .branch (fun _ => .map globalType_eq_ok) fun _ => ?_
  exact .branch (fun _ => .map fun _ _ _ _ => trivial) fun _ => .failed

theorem importEntry_eq_ok : Yields importEntry fun i => i.desc.Proper :=
  .skip fun _ => .skip fun _ => .skip fun _ => importDesc_eq_ok.bind fun _ hdesc => .done hdesc

theorem exportEntry_eq_ok : Yields exportEntry fun e => ¬ EntityCode.tag < e.kind :=
  .skip fun _ => .skip fun _ => .refuse fun hkind => .skip fun _ => .done hkind

theorem globalEntry_eq_ok : Yields globalEntry Global.Proper :=
  globalType_eq_ok.bind fun _ htype => constExpr_eq_ok.bind fun _ hinit => .done ⟨htype, hinit.2⟩

end Reader

end HostCatch
