import HostCatch.Fault.Basic
import Mathlib.Data.List.Forall2

namespace HostCatch

open List

variable {ε α β γ : Type} {x : Except ε α} {f : α → Except ε β} {a : α}

theorem bind_eq_ok_iff {b : β} : (x >>= f) = .ok b ↔ ∃ a, x = .ok a ∧ f a = .ok b := by
  cases x with
  | error e => simp [bind, Except.bind]
  | ok a => simp [bind, Except.bind]

theorem of_bind {b : β} (h : (x >>= f) = .ok b) : ∃ a, x = .ok a ∧ f a = .ok b :=
  bind_eq_ok_iff.mp h

@[simp] theorem ok_bind (a : α) (f : α → Except ε β) : (Except.ok a >>= f) = f a := rfl

@[simp] theorem pure_eq_ok_iff {b : α} : (pure a : Except ε α) = .ok b ↔ a = b := by
  simp [pure, Except.pure]

theorem map_eq_ok_iff {f : α → β} {b : β} : (f <$> x) = .ok b ↔ ∃ a, x = .ok a ∧ f a = b := by
  cases x with
  | error e => simp [Functor.map, Except.map]
  | ok a => simp [Functor.map, Except.map]

@[simp] theorem not_throw_eq_ok {e : ε} : ¬ (throw e : Except ε α) = .ok a := by
  intro h
  cases h

theorem liftM_fault_eq_ok_iff {x : Except Fault α} :
    (liftM x : Except Failure α) = .ok a ↔ x = .ok a := by
  cases x with
  | error e => simp [liftM, monadLift, MonadLift.monadLift]
  | ok b => simp [liftM, monadLift, MonadLift.monadLift]

theorem liftM_abort_eq_ok_iff {x : Except Abort α} :
    (liftM x : Except Failure α) = .ok a ↔ x = .ok a := by
  cases x with
  | error e => simp [liftM, monadLift, MonadLift.monadLift]
  | ok b => simp [liftM, monadLift, MonadLift.monadLift]

@[simp] theorem map_ok (f : α → β) (a : α) : (f <$> (Except.ok a : Except ε α)) = .ok (f a) := rfl

@[simp] theorem liftM_abort_ok (a : α) :
    (liftM (Except.ok a : Except Abort α) : Except Failure α) = .ok a := rfl

theorem any_toOption_iff {test : α → Bool} :
    x.toOption.any test = true ↔ ∃ a, x = .ok a ∧ test a = true := by
  cases x with
  | error e => simp [Except.toOption]
  | ok a => simp [Except.toOption]

theorem mapM_congr {g : α → Except ε β} {as : List α} (h : ∀ a ∈ as, f a = g a) :
    as.mapM f = as.mapM g := by
  induction as with
  | nil => rfl
  | cons a as ih =>
    rw [mapM_cons, mapM_cons, h a mem_cons_self, ih fun b hb => h b (mem_cons_of_mem _ hb)]

theorem mapM_eq_ok_iff {as : List α} {bs : List β} :
    as.mapM f = .ok bs ↔ Forall₂ (fun a b => f a = .ok b) as bs := by
  induction as generalizing bs with
  | nil => simp [eq_comm (a := [])]
  | cons a as ih =>
    rw [mapM_cons, bind_eq_ok_iff]
    constructor
    · rintro ⟨b, hb, h⟩
      obtain ⟨rest, hrest, h⟩ := of_bind h
      cases h
      exact .cons hb (ih.mp hrest)
    · intro h
      cases h with
      | cons hb hrest => exact ⟨_, hb, bind_eq_ok_iff.mpr ⟨_, ih.mpr hrest, rfl⟩⟩

variable {σ : Type} {R : α → β → Prop} {as : List α} {bs : List β} {motive : β → Prop}

theorem run_bind_eq_ok_iff {x : StateT σ (Except ε) α} {f : α → StateT σ (Except ε) β} {s : σ}
    {r : β × σ} :
    (x >>= f).run s = .ok r ↔ ∃ a t, x.run s = .ok (a, t) ∧ (f a).run t = .ok r := by
  rw [StateT.run_bind, bind_eq_ok_iff, Prod.exists]

theorem run_lift_eq_ok_iff {x : Except ε α} {s : σ} {r : α × σ} :
    (liftM x : StateT σ (Except ε) α).run s = .ok r ↔ ∃ a, x = .ok a ∧ r = (a, s) := by
  cases x with
  | error e => simp [liftM, monadLift, MonadLift.monadLift, StateT.lift, StateT.run, bind, Except.bind]
  | ok a =>
    simp [liftM, monadLift, MonadLift.monadLift, StateT.lift, StateT.run, bind, Except.bind, pure,
      Except.pure, eq_comm]

theorem run_liftAbort_eq_ok_iff {x : Except Abort α} {s : σ} {r : α × σ} :
    (liftM x : StateT σ (Except Failure) α).run s = .ok r ↔ ∃ a, x = .ok a ∧ r = (a, s) := by
  refine (run_lift_eq_ok_iff (x := (liftM x : Except Failure α))).trans ?_
  simp only [liftM_abort_eq_ok_iff]

theorem exists_forall₂ (h : ∀ a ∈ as, ∃ b, R a b) : ∃ bs, Forall₂ R as bs := by
  induction as with
  | nil => exact ⟨[], .nil⟩
  | cons a as ih =>
    obtain ⟨b, hb⟩ := h a mem_cons_self
    obtain ⟨bs, hbs⟩ := ih fun a' ha' => h a' (mem_cons_of_mem a ha')
    exact ⟨b :: bs, .cons hb hbs⟩

theorem forall₂_mem_left (h : Forall₂ R as bs) (ha : a ∈ as) : ∃ b ∈ bs, R a b := by
  induction h with
  | nil => simp at ha
  | cons hab _ ih =>
    rcases mem_cons.mp ha with rfl | ha
    · exact ⟨_, mem_cons_self, hab⟩
    · obtain ⟨b, hb, hr⟩ := ih ha
      exact ⟨b, mem_cons_of_mem _ hb, hr⟩

theorem forall₂_mem_right (h : Forall₂ R as bs) {b : β} (hb : b ∈ bs) : ∃ a ∈ as, R a b :=
  forall₂_mem_left h.flip hb

theorem forall₂_getElem? (h : Forall₂ R as bs) {n : Nat} (ha : as[n]? = some a) :
    ∃ b, bs[n]? = some b ∧ R a b := by
  induction h generalizing n with
  | nil => simp at ha
  | cons hab _ ih =>
    cases n with
    | zero =>
      cases Option.some.inj ha
      exact ⟨_, rfl, hab⟩
    | succ n => exact ih ha

theorem lt_of_getElem? {k : Nat} (h : as[k]? = some a) : k < as.length :=
  (List.getElem?_eq_some_iff.mp h).1

theorem getElem?_of_isPrefix {bs : List α} (h : as <+: bs) {k : Nat} (ha : as[k]? = some a) :
    bs[k]? = some a := by
  obtain ⟨rest, rfl⟩ := h
  rwa [List.getElem?_append_left (List.getElem?_eq_some_iff.mp ha).1]

theorem getElem?_append_some {k : Nat} (bs : List α) (ha : as[k]? = some a) :
    (as ++ bs)[k]? = some a :=
  getElem?_of_isPrefix (prefix_append _ _) ha

theorem getElem?_concat_eq_some_iff {b : α} {n : Nat} :
    (as ++ [a])[n]? = some b ↔ as[n]? = some b ∨ (n = as.length ∧ b = a) := by
  rw [getElem?_append]
  grind

theorem forM_eq_ok_iff {f : α → Except ε Unit} : as.forM f = .ok () ↔ ∀ a ∈ as, f a = .ok () := by
  induction as with
  | nil => simp
  | cons a as ih =>
    change (f a >>= fun _ => as.forM f) = _ ↔ _
    rw [bind_eq_ok_iff, forall_mem_cons]
    exact ⟨fun ⟨_, ha, h⟩ => ⟨ha, ih.mp h⟩, fun ⟨ha, h⟩ => ⟨(), ha, ih.mpr h⟩⟩

/-- A fold succeeds when its steps do, as long as what they rely on survives them. -/
theorem foldlM_exists {f : β → α → Except ε β} {b : β} (initial : motive b)
    (step : ∀ a ∈ as, ∀ b, motive b → ∃ c, f b a = .ok c ∧ motive c) :
    ∃ c, as.foldlM f b = .ok c := by
  induction as generalizing b with
  | nil => exact ⟨b, rfl⟩
  | cons a as ih =>
    obtain ⟨c, hc, hmotive⟩ := step a mem_cons_self b initial
    obtain ⟨d, hd⟩ := ih hmotive fun a' ha' => step a' (mem_cons_of_mem a ha')
    exact ⟨d, by rw [foldlM_cons, hc, ok_bind, hd]⟩

theorem foldlM_ok_induction {f : β → α → Except ε β} {start result : β} (initial : motive start)
    (step : ∀ b a c, a ∈ as → motive b → f b a = .ok c → motive c)
    (h : as.foldlM f start = .ok result) : motive result := by
  induction as generalizing start with
  | nil =>
    cases h
    exact initial
  | cons a as ih =>
    obtain ⟨b, hb, h⟩ := of_bind h
    refine ih (step start a b mem_cons_self initial hb) ?_ h
    exact fun b a c ha => step b a c (mem_cons_of_mem _ ha)

end HostCatch
