import HostCatch.Proofs.Wire.Entities
import HostCatch.Wire.Section.Segments

namespace HostCatch

open List

namespace Reader

open Wire

variable {α β : Type} {c c' : Cursor}

theorem ite_bind {P : Prop} [Decidable P] (p q : Reader α) (f : α → Reader β) :
    (if P then p >>= f else q >>= f) = (if P then p else q) >>= f := by
  split <;> rfl

theorem pure_spells_of_eq_ok {a b : α} (h : (pure a : Reader α) c = .ok b c') :
    Spells (pure a) [] b :=
  (pure_eq_ok_iff.mp h).1 ▸ .done a

theorem Spells.ite {P : Prop} [Decidable P] {p q : Reader α} {v w : Bytes} {a : α}
    (h : (if P then p else q) c = .ok a c') (hp : p c = .ok a c' → Spells p v a)
    (hq : q c = .ok a c' → Spells q w a) : Spells (if P then p else q) (if P then v else w) a := by
  split at h
  next hP =>
    rw [if_pos hP, if_pos hP]
    exact hp h
  next hP =>
    rw [if_neg hP, if_neg hP]
    exact hq h

theorem refAfter_spells_of_eq_ok {code : TypeCode} {ref : Option RefType}
    (h : refAfter code c = .ok ref c') :
    Spells (refAfter code) (refOrCode code ref).tail ref ∧
      refOrCode code ref = code :: (refOrCode code ref).tail := by
  obtain ⟨w, hw, hread⟩ := refAfter_eq_ok h
  rw [hw]
  exact ⟨hread, rfl⟩

/-- What follows the flags of an element segment, given what they announce. -/
def elementAfter (flags : UInt32) (placed active typed listed : Bool) : Reader Element :=
  (if placed then u32 else pure 0) >>= fun table =>
  (if active then constExpr else pure []) >>= fun offset =>
  (if typed && !listed then byte else pure 0) >>= fun elemKind =>
  (if typed && listed then byte else pure 0) >>= fun type =>
  (if typed && listed then refAfter type else pure none) >>= fun ref =>
  u32 >>= fun n =>
  (if listed then pure [] else times u32 n.toNat) >>= fun funcs =>
  (if listed then times constExpr n.toNat else pure []) >>= fun exprs =>
  pure ⟨flags, table, offset, elemKind, type, ref, funcs, exprs⟩

theorem element_eq : element = u32 >>= fun flags =>
    let e : Element := ⟨flags, 0, [], 0, 0, none, [], []⟩
    if 7 < flags then throw (.elementFlags flags)
    else elementAfter flags e.hasTable e.isActive e.hasType e.hasExprs := by
  unfold element elementAfter
  simp only [ite_bind]
  rfl

section Parts

variable {n : UInt32} {typed listed : Bool} {funcs funcs' : List UInt32} {exprs exprs' : List Bytes}

/-- As many other functions as were read, where functions are listed. -/
theorem funcs_spells (h : (if listed then pure [] else times u32 n.toNat) c = .ok funcs c')
    (hlength : funcs'.length = funcs.length) :
    Spells (if listed then pure [] else times u32 n.toNat)
      (if listed then [] else funcs'.flatMap Leb128.u32) funcs' := by
  cases listed with
  | true =>
    obtain rfl := length_eq_zero_iff.mp (hlength.trans
      (congrArg List.length (pure_eq_ok_iff.mp h).1.symm))
    exact .done []
  | false =>
    rw [if_neg Bool.false_ne_true, if_neg Bool.false_ne_true, ← (times_eq_ok h).1, ← hlength]
    exact .times fun i _ => u32_spells i

/-- As many other expressions as were read, where expressions are listed. -/
theorem exprs_spells (h : (if listed then times constExpr n.toNat else pure []) c = .ok exprs c')
    (hlength : exprs'.length = exprs.length) (hspelled : ∀ expr ∈ exprs', Spells constExpr expr expr) :
    Spells (if listed then times constExpr n.toNat else pure [])
      (if listed then exprs'.flatMap id else []) exprs' := by
  cases listed with
  | true =>
    rw [if_pos rfl, if_pos rfl, ← (times_eq_ok h).1, ← hlength]
    exact .times hspelled
  | false =>
    obtain rfl := length_eq_zero_iff.mp (hlength.trans
      (congrArg List.length (pure_eq_ok_iff.mp h).1.symm))
    exact .done []

theorem exprs_spelled (h : (if listed then times constExpr n.toNat else pure []) c = .ok exprs c') :
    ∀ expr ∈ exprs, Spells constExpr expr expr := by
  intro expr hexpr
  split at h
  next =>
    obtain ⟨d, d', hread⟩ := (times_eq_ok h).2 expr hexpr
    exact (constExpr_eq_ok hread).2
  next =>
    rw [← (pure_eq_ok_iff.mp h).1] at hexpr
    exact absurd hexpr not_mem_nil

/-- There are entries of one kind only, as many as was said. -/
theorem entries_eq {d d' : Cursor}
    (hfuncs : (if listed then pure [] else times u32 n.toNat) c = .ok funcs c')
    (hexprs : (if listed then times constExpr n.toNat else pure []) d = .ok exprs d')
    (hfuncs' : funcs'.length = funcs.length) (hexprs' : exprs'.length = exprs.length) :
    (if listed then Wire.list id exprs' else Wire.list Leb128.u32 funcs') =
      Leb128.u32 n ++ ((if listed then [] else funcs'.flatMap Leb128.u32) ++
        if listed then exprs'.flatMap id else []) := by
  cases listed with
  | false => simp [Wire.list, Wire.size, hfuncs', (times_eq_ok hfuncs).1]
  | true => simp [Wire.list, Wire.size, hexprs', (times_eq_ok hexprs).1]

/-- The type of the entries is a kind or a type code with what follows this. -/
theorem typePart_eq {kind type : UInt8} {ref : Option RefType}
    (h : (if typed && listed then refAfter type else pure none) c = .ok ref c') :
    (if typed then if listed then refOrCode type ref else [kind] else []) =
      (if typed && !listed then [kind] else []) ++ ((if typed && listed then [type] else []) ++
        if typed && listed then (refOrCode type ref).tail else []) := by
  cases typed with
  | false => simp
  | true =>
    cases listed with
    | false => simp
    | true =>
      rw [if_pos rfl, if_pos rfl, (refAfter_spells_of_eq_ok h).2]
      simp

end Parts

/-- What was read stands for itself, also with another table where one is written and with as many
other entries. -/
theorem elementAfter_eq_ok {flags : UInt32} {placed active typed listed : Bool} {e : Element}
    (h : elementAfter flags placed active typed listed c = .ok e c') :
    e.flags = flags ∧ (placed = false → e.table = 0) ∧ (∀ expr ∈ e.exprs, Spells constExpr expr expr) ∧
      ∀ (other : UInt32) funcs exprs, funcs.length = e.funcs.length → exprs.length = e.exprs.length →
        (∀ expr ∈ exprs, Spells constExpr expr expr) →
        Spells (elementAfter flags placed active typed listed)
          ((if placed then Leb128.u32 other else []) ++ (if active then e.offset else []) ++
            (if typed then if listed then refOrCode e.type e.ref else [e.elemKind] else []) ++
            (if listed then Wire.list id exprs else Wire.list Leb128.u32 funcs))
          { e with table := if placed then other else 0, funcs, exprs } := by
  obtain ⟨table, d, htable, h⟩ := of_bind h
  obtain ⟨offset, d, hoffset, h⟩ := of_bind h
  obtain ⟨elemKind, d, hkind, h⟩ := of_bind h
  obtain ⟨type, d, htype, h⟩ := of_bind h
  obtain ⟨ref, d, href, h⟩ := of_bind h
  obtain ⟨n, d, -, h⟩ := of_bind h
  obtain ⟨funcs, d, hfuncs, h⟩ := of_bind h
  obtain ⟨exprs, d, hexprs, h⟩ := of_bind h
  cases h
  refine ⟨rfl, ?_, exprs_spelled hexprs, fun other funcs' exprs' hfuncs' hexprs' hspelled => ?_⟩
  · rintro rfl
    exact (pure_eq_ok_iff.mp htable).1.symm
  have hother : Spells (if placed then u32 else pure 0) (if placed then Leb128.u32 other else [])
      (if placed then other else 0) := by
    cases placed with
    | true => exact u32_spells other
    | false => exact .done 0
  have hread : Spells (elementAfter flags placed active typed listed) _ _ :=
    hother.bind <|
    (Spells.ite hoffset (fun h => (constExpr_eq_ok h).2) pure_spells_of_eq_ok).bind <|
    (Spells.ite hkind (fun _ => .byte elemKind) pure_spells_of_eq_ok).bind <|
    (Spells.ite htype (fun _ => .byte type) pure_spells_of_eq_ok).bind <|
    (Spells.ite href (fun h => (refAfter_spells_of_eq_ok h).1) pure_spells_of_eq_ok).bind <|
    (u32_spells n).bind <|
    (funcs_spells hfuncs hfuncs').bind (exprs_spells hexprs hexprs' hspelled).bind_pure
  rw [typePart_eq href, entries_eq hfuncs hexprs hfuncs' hexprs']
  simpa only [append_assoc] using hread

end Reader

namespace Wire

open Reader

/-- The segment that the bytes of a segment stand for: where no table is written, it is the first. -/
def Element.stored (e : Element) : Element :=
  { e with table := if e.hasTable then e.table else 0 }

/-- A segment that can be told by its bytes, whatever table it is for. -/
structure Element.Proper (e : Element) : Prop where
  stored : e.stored = e
  spells : ∀ table, Spells Reader.element (element { e with table })
    ({ e with table } : Element).stored

theorem Element.Proper.self {e : Element} (h : e.Proper) : Spells Reader.element (element e) e := by
  have hread := h.spells e.table
  rwa [show ({ e with table := e.table } : Element) = e from rfl, h.stored] at hread

end Wire

namespace Reader

open Wire

variable {α β : Type} {p : Reader α} {data : Bytes} {a : α}

/-- An element segment that was read stands for itself, also with another table and other entries. -/
theorem element_refills {c c' : Cursor} {e : Element} (h : element c = .ok e c') :
    e.stored = e ∧ (∀ expr ∈ e.exprs, Spells constExpr expr expr) ∧
      ∀ table funcs exprs, funcs.length = e.funcs.length → exprs.length = e.exprs.length →
        (∀ expr ∈ exprs, Spells constExpr expr expr) →
        Spells element (Wire.element { e with table, funcs, exprs })
          ({ e with table, funcs, exprs } : Element).stored := by
  rw [element_eq] at h
  obtain ⟨flags, d, -, h⟩ := of_bind h
  split at h
  next => exact absurd h throw_ne_ok
  next hflags =>
    obtain ⟨rfl, hnone, hexprs, hread⟩ := elementAfter_eq_ok h
    refine ⟨?_, hexprs, fun table funcs exprs hfuncs hlength hspelled => ?_⟩
    · unfold Element.stored
      split
      next => rfl
      next hplaced => rw [← hnone (Bool.eq_false_iff.mpr hplaced)]
    · rw [element_eq]
      unfold Wire.element
      simp only [append_assoc]
      refine (u32_spells e.flags).bind ?_
      rw [if_neg hflags]
      have hother := hread table funcs exprs hfuncs hlength hspelled
      simp only [append_assoc] at hother
      exact hother

theorem element_eq_ok : Yields element Element.Proper := by
  intro c e c' h
  obtain ⟨hstored, hexprs, hread⟩ := element_refills h
  exact ⟨hstored, fun table => hread table e.funcs e.exprs rfl rfl hexprs⟩

theorem dataSegment_eq : dataSegment = u32 >>= fun flags =>
    if 2 < flags then throw (.dataFlags flags)
    else (if flags = 2 then u32 else pure 0) >>= fun mem =>
      (if flags ≠ 1 then constExpr else pure []) >>= fun offset =>
      u32 >>= fun n => bytes n.toNat >>= fun init => pure ⟨flags, mem, offset, init⟩ := by
  unfold dataSegment
  simp only [ite_bind]
  rfl

theorem dataSegment_eq_ok : Yields dataSegment fun s =>
    Spells dataSegment (Wire.dataSegment s) s := by
  intro c s c' h
  rw [dataSegment_eq] at h ⊢
  obtain ⟨flags, d, -, h⟩ := of_bind h
  split at h
  next => exact absurd h throw_ne_ok
  next hflags =>
    obtain ⟨mem, d, hmem, h⟩ := of_bind h
    obtain ⟨offset, d, hoffset, h⟩ := of_bind h
    obtain ⟨n, d, -, h⟩ := of_bind h
    obtain ⟨init, d, hinit, h⟩ := of_bind h
    cases h
    have hsize : Wire.size init.length = Leb128.u32 n := by
      rw [Wire.size, bytes_eq_ok hinit, UInt32.ofNat_toNat]
    rw [ite_not] at hoffset
    have hplace := Spells.ite hoffset pure_spells_of_eq_ok fun h => (constExpr_eq_ok h).2
    unfold Wire.dataSegment
    simp only [append_assoc, hsize]
    refine (u32_spells flags).bind ?_
    rw [if_neg hflags]
    refine (Spells.ite hmem (fun _ => u32_spells mem) pure_spells_of_eq_ok).bind ?_
    simp only [ite_not]
    refine hplace.bind ((u32_spells n).bind ?_)
    exact (bytes_spells_of_eq_ok hinit).bind_pure

theorem run_eq_ok (h : p.run data = .ok a) : ∃ c, p (.start data) = .ok a c := by
  unfold run at h
  split at h
  next hp =>
    cases h
    exact ⟨_, hp⟩
  next => cases h

theorem inside_eq_ok {c c' : Cursor} (h : inside data p c = .ok a c') :
    c = c' ∧ ∃ d, p (.start data) = .ok a d := by
  unfold inside at h
  split at h
  next hrun =>
    cases h
    exact ⟨rfl, run_eq_ok hrun⟩
  next => cases h

theorem inside_spells (h : p.run data = .ok a) : Spells (inside data p) [] a := by
  intro rest pos
  simp [inside, h]

theorem Spells.run_remaining {v w : Bytes} {f : α → Bytes → β} (h : Spells p v a) :
    (p >>= fun a => remaining >>= fun rest => pure (f a rest)).run (v ++ w) = .ok (f a w) := by
  have hread : (p >>= fun a => remaining >>= fun rest => pure (f a rest)) (.start (v ++ w)) =
      .ok (f a w) ⟨[], v.length + w.length⟩ := by
    refine bind_eq_ok_iff.mpr ⟨a, ⟨w, v.length⟩, ?_, ?_⟩
    · have := h w 0
      rwa [Nat.zero_add] at this
    · exact bind_eq_ok_iff.mpr ⟨w, ⟨[], v.length + w.length⟩, rfl, rfl⟩
  simp only [Reader.run, hread]

theorem custom_run {c : Custom} (h : (Wire.custom c).length < 2 ^ 32) :
    custom.run (Wire.custom c) = .ok c := by
  simp only [Wire.custom, length_append] at h
  exact (name_spelled c.name (by omega)).run_remaining

end Reader

namespace Wire

open Reader

def LocalEntry.Coded (l : LocalEntry) : Prop :=
  ExtCoded l.val l.ext

theorem localEntry_spells {l : LocalEntry} (h : l.Coded) :
    Spells Reader.localEntry (localEntry l) l := by
  obtain ⟨w, hw, hext⟩ := h
  unfold localEntry
  rw [hw]
  exact (u32_spells l.count).bind (Spells.bind (v := [l.val]) (.byte l.val) hext.bind_pure)

theorem funcBody_spelled {b : FuncBody} (h : ∀ l ∈ b.locals, l.Coded) :
    Spelled Reader.funcBody funcBody b := by
  intro hlength
  unfold funcBody at hlength ⊢
  simp only [length_append] at hlength
  have hlocals : Spells (Reader.list Reader.localEntry) (list localEntry b.locals) b.locals := by
    exact list_spelled (fun l hl _ => localEntry_spells (h l hl)) nofun (by omega)
  refine (u32_spells _).bind ?_
  rw [toNat_ofNat_size (by simp only [length_append]; omega)]
  refine (Spells.bytes _).bind_nil (inside_spells ?_)
  exact hlocals.run_remaining

end Wire

end HostCatch
