import HostCatch.Proofs.Wire.Spelling
import HostCatch.Wire.Section.Types

namespace HostCatch

namespace Reader

open Wire

variable {α β : Type} {p : Reader α} {c d e : Cursor} {n : Nat} {types : List FuncType}

theorem times_map (f : α → β) (p : Reader α) (n : Nat) :
    times (f <$> p) n = List.map f <$> times p n := by
  induction n with
  | zero => simp [times]
  | succ n ih => simp [times, ih]

theorem times_add (p : Reader α) (m n : Nat) :
    times p (m + n) = (do
      let first ← times p m
      let rest ← times p n
      pure (first ++ rest)) := by
  induction m with
  | zero => simp [times]
  | succ m ih => simp [Nat.succ_add, times, ih]

theorem skipTypes_eq : skipTypes = (fun _ => ()) <$> list extType := by
  have hskip : (do let code ← byte; let _ ← refAfter code; pure ()) = (fun _ => ()) <$> extType := by
    simp [extType, extAfter]
  simp only [skipTypes, hskip, times_map]
  simp [list]

/-- Passing over a function type is reading it without keeping it. -/
theorem skipFuncType_eq : skipFuncType = (fun _ => ()) <$> funcType := by
  simp [skipFuncType, funcType, skipTypes_eq]

theorem skipFuncType_eq_ok_iff : skipFuncType c = .ok () d ↔ ∃ t, funcType c = .ok t d := by
  rw [skipFuncType_eq, map_eq_ok_iff]
  simp

theorem typeDef_of_plainType {t : FuncType} (h : plainType c = .ok t d) :
    typeDef c = .ok (.func (some t)) d := by
  obtain ⟨form, e, hform, h⟩ := of_bind h
  split at h
  next hfunc =>
    refine bind_eq_ok_iff.mpr ⟨form, e, hform, ?_⟩
    rw [if_pos hfunc]
    exact bind_eq_ok_iff.mpr ⟨t, d, h, rfl⟩
  next => exact absurd h throw_ne_ok

theorem typeDefs_of_plainTypes (h : times plainType n c = .ok types d) :
    times typeDef n c = .ok (types.map (TypeDef.func ∘ some)) d := by
  induction n generalizing c types with
  | zero =>
    cases h
    rfl
  | succ n ih =>
    obtain ⟨t, e, ht, h⟩ := of_bind h
    obtain ⟨rest, f, hrest, h⟩ := of_bind h
    cases h
    exact (bind_of_eq_ok (typeDef_of_plainType ht) _).trans (bind_of_eq_ok (ih hrest) _)

/-- One definition is looked through: a function type is passed over, and any other is an answer. -/
theorem anyComposite_succ_iff {found : Bool} : anyComposite (n + 1) c = .ok found d ↔
    (∃ t e, plainType c = .ok t e ∧ anyComposite n e = .ok found d) ∨
      found = true ∧ ∃ form, byte c = .ok form d ∧ Form.isComposite form = true := by
  constructor
  · intro h
    obtain ⟨form, e, hform, h⟩ := of_bind h
    split at h
    next hfunc =>
      obtain ⟨_, f, hskip, h⟩ := of_bind h
      obtain ⟨t, ht⟩ := skipFuncType_eq_ok_iff.mp hskip
      refine .inl ⟨t, f, bind_eq_ok_iff.mpr ⟨form, e, hform, ?_⟩, h⟩
      rwa [if_pos hfunc]
    next hfunc =>
      split at h
      next hcomposite =>
        cases h
        exact .inr ⟨rfl, form, hform, hcomposite⟩
      next => exact absurd h throw_ne_ok
  · rintro (⟨t, e, ht, h⟩ | ⟨rfl, form, hform, hcomposite⟩)
    · obtain ⟨form, f, hform, ht⟩ := of_bind ht
      refine bind_eq_ok_iff.mpr ⟨form, f, hform, ?_⟩
      split at ht
      next hfunc =>
        rw [if_pos hfunc]
        exact bind_eq_ok_iff.mpr ⟨(), e, skipFuncType_eq_ok_iff.mpr ⟨t, ht⟩, h⟩
      next => exact absurd ht throw_ne_ok
    · have hother : form ≠ Form.func := by
        rintro rfl
        cases hcomposite
      refine bind_eq_ok_iff.mpr ⟨form, d, hform, ?_⟩
      rw [if_neg hother, if_pos hcomposite]
      rfl

/-- Nothing but function types is met exactly if so many can be read, up to the same place. -/
theorem anyComposite_eq_false_iff :
    anyComposite n c = .ok false d ↔ ∃ types, times plainType n c = .ok types d := by
  induction n generalizing c with
  | zero => simp [anyComposite, times, pure_eq_ok_iff]
  | succ n ih =>
    simp only [anyComposite_succ_iff, ih, times, bind_eq_ok_iff, pure_eq_ok_iff]
    grind

/-- Where something else is met, the function types before it are read up to there. -/
theorem anyComposite_eq_true (h : anyComposite n c = .ok true d) :
    ∃ types e form, types.length < n ∧ times plainType types.length c = .ok types e ∧
      byte e = .ok form d ∧ Form.isComposite form = true := by
  induction n generalizing c with
  | zero => cases h
  | succ n ih =>
    obtain ⟨t, e, ht, h⟩ | ⟨-, form, hform, hcomposite⟩ := anyComposite_succ_iff.mp h
    · obtain ⟨types, f, form, hlt, htypes, hform⟩ := ih h
      refine ⟨t :: types, f, form, Nat.succ_lt_succ hlt, ?_, hform⟩
      exact (bind_of_eq_ok ht _).trans (bind_of_eq_ok htypes _)
    · exact ⟨[], c, form, Nat.succ_pos n, rfl, hform, hcomposite⟩

/-- The second pass starts where the first did. -/
theorem typeSection_eq {n : UInt32} {found : Bool} (m : Module) (hn : u32 c = .ok n d)
    (h : anyComposite n.toNat d = .ok found e) : typeSection m c = (if found then do
        let typeDefs ← times typeDef n.toNat
        pure { m with typeDefs, types := typeDefs.flatMap TypeDef.funcTypes }
      else do
        let types ← times plainType n.toNat
        pure { m with types }) d :=
  (bind_of_eq_ok hn _).trans ((bind_of_eq_ok rfl _).trans ((bind_of_eq_ok h _).trans (bind_of_eq_ok rfl _)))

/-- The passes over a type section agree. A function type is passed over exactly if it can be read, up to
the same place. Where nothing else is met, as many types are read as there are to be. Where something
else is met, the function types up to there are read, and reading goes on from there. -/
theorem typeSection_passes (m : Module) (c : Cursor) :
    (∀ d, skipFuncType c = .ok () d ↔ ∃ t, funcType c = .ok t d) ∧
    ∀ n d, u32 c = .ok n d →
      (∀ e, anyComposite n.toNat d = .ok false e → ∃ types, types.length = n.toNat ∧
        times plainType n.toNat d = .ok types e ∧ typeSection m c = .ok { m with types } e) ∧
      ∀ e, anyComposite n.toNat d = .ok true e → ∃ types f form, types.length < n.toNat ∧
        anyComposite types.length d = .ok false f ∧ times plainType types.length d = .ok types f ∧
        byte f = .ok form e ∧ Form.isComposite form = true ∧
        typeSection m c = (do
          let later ← times typeDef (n.toNat - types.length)
          pure { m with
            typeDefs := types.map (TypeDef.func ∘ some) ++ later
            types := types ++ later.flatMap TypeDef.funcTypes }) f := by
  refine ⟨fun d => skipFuncType_eq_ok_iff, fun n d hn => ⟨fun e hlook => ?_, fun e hlook => ?_⟩⟩
  · obtain ⟨types, htypes⟩ := anyComposite_eq_false_iff.mp hlook
    exact ⟨types, (times_eq_ok htypes).1, htypes,
      (typeSection_eq m hn hlook).trans (bind_of_eq_ok htypes _)⟩
  · obtain ⟨types, f, form, hlt, htypes, hform, hcomposite⟩ := anyComposite_eq_true hlook
    refine ⟨types, f, form, hlt, anyComposite_eq_false_iff.mpr ⟨types, htypes⟩, htypes, hform,
      hcomposite, ?_⟩
    rw [typeSection_eq m hn hlook, if_pos rfl, ← Nat.add_sub_cancel' (Nat.le_of_lt hlt), times_add,
      bind_assoc, bind_of_eq_ok (typeDefs_of_plainTypes htypes)]
    simp [List.flatMap_map, TypeDef.funcTypes]

end Reader

end HostCatch
