import HostCatch.Wire.Primitive
import Mathlib.Data.List.Basic

namespace HostCatch

open List

namespace Reader

variable {α β : Type} {c c' : Cursor}

variable {p : Reader α} {f : α → Reader β}

/-- Whatever follows the bytes `w`, the reader takes just these and gives `a`. -/
def Spells (p : Reader α) (w : Bytes) (a : α) : Prop :=
  ∀ rest pos, p ⟨w ++ rest, pos⟩ = .ok a ⟨rest, pos + w.length⟩

theorem bind_eq_ok_iff {b : β} :
    (p >>= f) c = .ok b c' ↔ ∃ a d, p c = .ok a d ∧ f a d = .ok b c' := by
  change EStateM.bind p f c = _ ↔ _
  unfold EStateM.bind
  cases p c with
  | ok a d => simp
  | error e d => simp

theorem of_bind {b : β} (h : (p >>= f) c = .ok b c') : ∃ a d, p c = .ok a d ∧ f a d = .ok b c' :=
  bind_eq_ok_iff.mp h

theorem bind_of_eq_ok {a : α} (h : p c = .ok a c') (f : α → Reader β) : (p >>= f) c = f a c' := by
  change EStateM.bind p f c = _
  simp only [EStateM.bind, h]

theorem pure_eq_ok_iff {a b : α} : (pure a : Reader α) c = .ok b c' ↔ a = b ∧ c = c' := by
  change EStateM.Result.ok a c = _ ↔ _
  simp

theorem map_eq_ok_iff {f : α → β} {b : β} :
    (f <$> p) c = .ok b c' ↔ ∃ a, p c = .ok a c' ∧ f a = b := by
  change EStateM.map f p c = _ ↔ _
  unfold EStateM.map
  cases p c with
  | ok a d => simp [and_comm]
  | error e d => simp

theorem throw_ne_ok {e : ReadFault} {a : α} : (throw e : Reader α) c ≠ .ok a c' := by
  intro h
  cases h

/-- Whatever a reader gives has a property. -/
def Yields (p : Reader α) (Q : α → Prop) : Prop :=
  ∀ ⦃c a c'⦄, p c = .ok a c' → Q a

namespace Yields

variable {p : Reader α} {f : α → Reader β} {P : α → Prop} {Q : β → Prop}

theorem done {b : β} (h : Q b) : Yields (pure b) Q :=
  fun _ _ _ hread => (pure_eq_ok_iff.mp hread).1 ▸ h

theorem failed {e : ReadFault} : Yields (throw e) Q :=
  fun _ _ _ h => absurd h throw_ne_ok

theorem bind (hp : Yields p P) (hf : ∀ a, P a → Yields (f a) Q) : Yields (p >>= f) Q := by
  intro c b c' h
  obtain ⟨a, d, ha, hb⟩ := of_bind h
  exact hf a (hp ha) hb

theorem skip (hf : ∀ a, Yields (f a) Q) : Yields (p >>= f) Q :=
  bind (P := fun _ => True) (fun _ _ _ _ => trivial) fun a _ => hf a

theorem map {g : α → β} (hp : Yields p fun a => Q (g a)) : Yields (g <$> p) Q := by
  intro c b c' h
  obtain ⟨a, ha, rfl⟩ := map_eq_ok_iff.mp h
  exact hp ha

theorem branch {c : Prop} [Decidable c] {q r : Reader β} (hq : c → Yields q Q)
    (hr : ¬ c → Yields r Q) : Yields (if c then q else r) Q := by
  split
  next h => exact hq h
  next h => exact hr h

theorem refuse {c : Prop} [Decidable c] {e : ReadFault} {q : Reader β} (hq : ¬ c → Yields q Q) :
    Yields (if c then throw e >>= f else q) Q :=
  branch (fun _ => failed.bind fun _ h => h) hq

end Yields

namespace Spells

variable {w : Bytes} {a : α} {p : Reader α} {f : α → Reader β}

theorem done (a : α) : Spells (pure a) [] a := by
  intro rest pos
  rfl

theorem bind {v : Bytes} {b : β} (hp : Spells p v a) (hf : Spells (f a) w b) :
    Spells (p >>= f) (v ++ w) b := by
  intro rest pos
  rw [bind_eq_ok_iff]
  refine ⟨a, ⟨w ++ rest, pos + v.length⟩, ?_, ?_⟩
  · rw [append_assoc]
    exact hp (w ++ rest) pos
  · rw [length_append, ← Nat.add_assoc]
    exact hf rest (pos + v.length)

theorem bind_nil {b : β} (hp : Spells p w a) (hf : Spells (f a) [] b) : Spells (p >>= f) w b := by
  have h := hp.bind hf
  rwa [append_nil] at h

theorem bind_pure {f : α → β} (hp : Spells p w a) : Spells (p >>= fun a => pure (f a)) w (f a) :=
  hp.bind_nil (.done (f a))

theorem map (f : α → β) (hp : Spells p w a) : Spells (f <$> p) w (f a) := by
  intro rest pos
  exact map_eq_ok_iff.mpr ⟨a, hp rest pos, rfl⟩

theorem byte (b : UInt8) : Spells byte [b] b := by
  intro rest pos
  rfl

theorem bytes (w : Bytes) : Spells (bytes w.length) w w := by
  intro rest pos
  simp [Reader.bytes]

theorem wholeBytes (w : Bytes) : Spells (wholeBytes w.length) w w := by
  intro rest pos
  simp [Reader.wholeBytes, bytes w rest pos]

theorem times {write : α → Bytes} {as : List α} (h : ∀ a ∈ as, Spells p (write a) a) :
    Spells (times p as.length) (as.flatMap write) as := by
  induction as with
  | nil => exact .done []
  | cons a as ih =>
    rw [flatMap_cons]
    refine (h a (by simp)).bind (Spells.bind_pure (ih ?_))
    intro b hb
    exact h b (by simp [hb])

theorem run (hp : Spells p w a) (rest : Bytes) : p.run (w ++ rest) = .ok a := by
  simp [Reader.run, Cursor.start, hp rest 0]

theorem locating (place : String) (hp : Spells p w a) : Spells (locating place p) w a := by
  intro rest pos
  simp [Reader.locating, hp rest pos]

theorem placingOverflow (hp : Spells p w a) : Spells (placingOverflow p) w a := by
  intro rest pos
  simp [Reader.placingOverflow, hp rest pos]

end Spells

variable {n : Nat}

theorem bytes_eq_ok {w : Bytes} (h : bytes n c = .ok w c') : w.length = n := by
  unfold bytes at h
  split at h
  next hn =>
    cases h
    rw [length_take, Nat.min_eq_left hn]
  next => cases h

theorem bytes_spells_of_eq_ok : Yields (bytes n) fun w => Spells (bytes n) w w :=
  fun _ w _ h => bytes_eq_ok h ▸ Spells.bytes w

theorem times_eq_ok {as : List α} (h : times p n c = .ok as c') :
    as.length = n ∧ ∀ a ∈ as, ∃ d d', p d = .ok a d' := by
  induction n generalizing c c' as with
  | zero =>
    cases h
    simp
  | succ n ih =>
    obtain ⟨a, d, ha, h⟩ := of_bind h
    obtain ⟨rest, e, hrest, h⟩ := of_bind h
    cases h
    obtain ⟨hlength, hall⟩ := ih hrest
    refine ⟨by simp [hlength], ?_⟩
    intro b hb
    rcases mem_cons.mp hb with rfl | hb
    · exact ⟨c, d, ha⟩
    · exact hall b hb

theorem times_yields {P : α → Prop} (hp : Yields p P) (n : Nat) :
    Yields (times p n) fun as => as.length = n ∧ ∀ a ∈ as, P a := by
  intro c as c' h
  obtain ⟨hlength, hall⟩ := times_eq_ok h
  refine ⟨hlength, fun a ha => ?_⟩
  obtain ⟨d, d', hread⟩ := hall a ha
  exact hp hread

end Reader

end HostCatch
