import HostCatch.Proofs.Wire.Sections
import HostCatch.Proofs.Wire.Shrinking
import HostCatch.Program.Names

namespace HostCatch

open List

namespace Reader

variable {α β : Type}

/-- Whatever the reader gives is spelled by the bytes that it takes. -/
def Local (p : Reader α) : Prop :=
  ∀ c a c', p c = .ok a c' → ∃ w, c.rest = w ++ c'.rest ∧ Spells p w a

namespace Local

variable {p : Reader α}

theorem bind {f : α → Reader β} (hp : Local p) (hf : ∀ a, Local (f a)) : Local (p >>= f) := by
  intro c b c' h
  obtain ⟨a, d, ha, hb⟩ := of_bind h
  obtain ⟨v, hv, hspells⟩ := hp c a d ha
  obtain ⟨w, hw, hspells'⟩ := hf a d b c' hb
  exact ⟨v ++ w, by rw [hv, hw, append_assoc], hspells.bind hspells'⟩

theorem done (a : α) : Local (pure a) := by
  intro c b c' h
  cases h
  exact ⟨[], rfl, .done a⟩

theorem fail (e : ReadFault) : Local (throw e : Reader α) :=
  fun _ _ _ h => absurd h throw_ne_ok

theorem byte : Local byte := by
  intro c b c' h
  obtain ⟨rest, pos⟩ := c
  cases rest with
  | nil => cases h
  | cons b rest =>
    cases h
    exact ⟨[b], rfl, .byte b⟩

theorem bytes (n : Nat) : Local (bytes n) := by
  intro c w c' h
  have hsplit : c.rest = w ++ c'.rest := by
    unfold Reader.bytes at h
    split at h
    next =>
      cases h
      exact (take_append_drop n c.rest).symm
    next => cases h
  obtain rfl := bytes_eq_ok h
  exact ⟨w, hsplit, .bytes w⟩

theorem locating (hp : Local p) (place : String) : Local (locating place p) := by
  intro c a c' h
  unfold Reader.locating at h
  split at h
  next ha =>
    cases h
    obtain ⟨w, hw, hspells⟩ := hp _ _ _ ha
    exact ⟨w, hw, hspells.locating place⟩
  next => cases h

theorem placingOverflow (hp : Local p) : Local (placingOverflow p) := by
  intro c a c' h
  obtain ⟨w, hw, hspells⟩ := hp _ _ _ (placingOverflow_eq_ok h)
  exact ⟨w, hw, hspells.placingOverflow⟩

theorem groups (more : Nat) : Local (Leb128.groups more) := by
  induction more with
  | zero =>
    refine byte.bind fun b => ?_
    split
    next => exact .done _
    next => exact .fail _
  | succ more ih =>
    refine byte.bind fun b => ?_
    split
    next => exact .done _
    next => exact ih.bind fun _ => .done _

theorem u32 : Local u32 := by
  refine placingOverflow (bind (bind (groups _) fun _ => .done _) fun _ => .done _)

theorem sectionData : Local sectionData :=
  (u32.locating _).bind fun _ => (bytes _).locating _

end Local

open Wire

/-- One section is read, then the rest. -/
theorem sections_cons_eq_ok {bound last pos : Nat} {m m' : Module} {id : UInt8} {w : Bytes}
    {c : Cursor} (h : sections (bound + 1) last m ⟨id :: w, pos⟩ = .ok m' c) :
    ∃ s v data rest next, id = s.toByte ∧ w = v ++ rest ∧ Spells sectionData v data ∧
      (s = .custom ∨ last < s.rank) ∧ (payload m s).run data = .ok next ∧
      sections bound (if s = .custom then last else s.rank) next ⟨rest, pos + 1 + v.length⟩ =
        .ok m' c := by
  -- The id, the size and the bytes are found first; they determine the rest.
  have hfound : ∃ (s : SectionId) (v data rest : Bytes), id = s.toByte ∧ w = v ++ rest ∧
      Spells sectionData v data ∧ (s = .custom ∨ last < s.rank) := by
    have hend : atEnd ⟨id :: w, pos⟩ = .ok false ⟨id :: w, pos⟩ := rfl
    have hid : byte ⟨id :: w, pos⟩ = .ok id ⟨w, pos + 1⟩ := rfl
    rw [sections, bind_of_eq_ok hend] at h
    simp only [Bool.false_eq_true, ↓reduceIte] at h
    rw [bind_of_eq_ok hid] at h
    split at h
    next =>
      obtain ⟨_, _, hthrow, -⟩ := of_bind h
      exact absurd hthrow throw_ne_ok
    next horder =>
      obtain ⟨data, d, hdata, h⟩ := of_bind h
      obtain ⟨v, hw, hv⟩ := Local.sectionData _ _ _ hdata
      cases hs : SectionId.ofByte? id with
      | none =>
        rw [hs] at h
        exact absurd h throw_ne_ok
      | some s =>
        obtain rfl := eq_toByte_of_ofByte? hs
        refine ⟨s, v, data, d.rest, rfl, hw, hv, ?_⟩
        rw [sectionRank_toByte] at horder
        by_cases hcustom : s = .custom
        · exact .inl hcustom
        · exact .inr (Nat.lt_of_not_le fun hle => horder ⟨fun heq => hcustom (toByte_inj heq), hle⟩)
  obtain ⟨s, v, data, rest, rfl, rfl, hv, hlast⟩ := hfound
  rw [sections_spelled hv hlast] at h
  obtain ⟨next, d, hnext, h⟩ := of_bind h
  obtain ⟨rfl, -⟩ := inside_eq_ok hnext
  obtain ⟨e, hread⟩ := inside_within_eq_ok hnext
  have hrun : (payload m s).run data = .ok next := by
    simp only [run, hread]
  exact ⟨s, v, data, rest, next, rfl, rfl, hv, hlast, hrun, h⟩

theorem payload_customs {s : SectionId} (hs : s ≠ .custom) (m : Module) (customs : List Custom) :
    payload { m with customs } s = (fun m => { m with customs }) <$> payload m s := by
  cases s with
  | custom => exact absurd rfl hs
  | types =>
    simp only [payload, typeSection, map_bind]
    refine bind_congr fun n => bind_congr fun here => bind_congr fun composite => bind_congr fun _ => ?_
    cases composite <;> simp only [Bool.false_eq_true, ↓reduceIte, map_bind, map_pure]
  | _ => simp only [payload, map_bind, map_pure]

end Reader

namespace Wire

open Reader

variable {data : Bytes} {m : Module} {c : Cursor}

/-- Whether a section is a custom section that holds debug names. -/
def holdsNames (id : UInt8) (payload : Bytes) : Bool :=
  id = SectionId.custom.toByte && (Reader.custom.run payload).toOption.any (·.name = nameSectionName)

/-- The first sections, at most `bound`, without those that hold debug names. -/
def cutNames : Nat → Bytes → Bytes
  | bound + 1, id :: w =>
    match Reader.sectionData (.start w) with
    | .ok payload c =>
      let rest := cutNames bound c.rest
      if holdsNames id payload then rest else id :: (w.take (w.length - c.rest.length) ++ rest)
    | .error _ _ => id :: w
  | _, w => w

/-- The bytes of a module without the sections that hold debug names. -/
def withoutNames (data : Bytes) : Bytes :=
  data.take 8 ++ cutNames data.length (data.drop 8)

/-- A module without the custom sections that hold debug names. -/
def Module.withoutNames (m : Module) : Module :=
  { m with customs := m.customs.filter (·.name ≠ nameSectionName) }

theorem cutNames_section {id : UInt8} {v : Bytes} (hv : Spells Reader.sectionData v data)
    (bound : Nat) (rest : Bytes) : cutNames (bound + 1) (id :: (v ++ rest)) =
      if holdsNames id data then cutNames bound rest else id :: (v ++ cutNames bound rest) := by
  simp only [cutNames, Cursor.start, hv rest 0, length_append, Nat.add_sub_cancel, take_left]

/-- A section that holds debug names leaves no trace, and every other section what it left before. -/
theorem payload_withoutNames {next : Module} {s : SectionId} (h : (payload m s).run data = .ok next) :
    if holdsNames s.toByte data then next.withoutNames = m.withoutNames
    else (payload m.withoutNames s).run data = .ok next.withoutNames := by
  by_cases hs : s = .custom
  · subst hs
    obtain ⟨c, h⟩ := Reader.run_eq_ok h
    obtain ⟨entry, d, hentry, h⟩ := Reader.of_bind h
    cases h
    have hrun : Reader.custom.run data = .ok entry := by
      simp only [Reader.run, hentry]
    have hholds : holdsNames SectionId.custom.toByte data = decide (entry.name = nameSectionName) := by
      simp [holdsNames, hrun, Except.toOption]
    rw [hholds]
    by_cases hname : entry.name = nameSectionName
    · simp [hname, Module.withoutNames]
    · simp only [hname, decide_false, Bool.false_eq_true, ↓reduceIte]
      have hfilter : (m.customs ++ [entry]).filter (·.name ≠ nameSectionName) =
          m.customs.filter (·.name ≠ nameSectionName) ++ [entry] := by
        simp [hname]
      rw [Module.withoutNames, Module.withoutNames, hfilter]
      exact run_bind_pure _ hrun
  · have hholds : holdsNames s.toByte data = false := by
      have hne : s.toByte ≠ SectionId.custom.toByte := fun heq => hs (toByte_inj heq)
      simp [holdsNames, hne]
    have hrun : ∀ customs, (payload { m with customs } s).run data = .ok { next with customs } := by
      intro customs
      rw [payload_customs hs, map_eq_pure_bind]
      exact run_bind_pure _ h
    have hcustoms : next.customs = m.customs := by
      have hsame := Except.ok.inj (h.symm.trans (hrun m.customs))
      rw [hsame]
    rw [hholds, if_neg Bool.false_ne_true, Module.withoutNames, Module.withoutNames, hcustoms]
    exact hrun _

/-- Cutting the name sections changes nothing but names. -/
theorem sections_cutNames {bound last pos : Nat} {m' : Module} {w : Bytes}
    (h : sections bound last m ⟨w, pos⟩ = .ok m' c) (hbound : w.length ≤ bound) {n : Nat}
    (hn : w.length ≤ n) {bound' : Nat} (hbound' : (cutNames n w).length ≤ bound') (pos' : Nat) :
    ∃ c', sections bound' last m.withoutNames ⟨cutNames n w, pos'⟩ = .ok m'.withoutNames c' := by
  induction bound generalizing last pos m w n bound' pos' with
  | zero =>
    obtain rfl := eq_nil_of_length_eq_zero (Nat.le_zero.mp hbound)
    cases h
    have hcut : cutNames n [] = [] := by cases n <;> rfl
    rw [hcut]
    exact ⟨_, sections_end _ _ _ _⟩
  | succ bound ih =>
    cases w with
    | nil =>
      rw [sections_end] at h
      cases h
      have hcut : cutNames n [] = [] := by cases n <;> rfl
      rw [hcut]
      exact ⟨_, sections_end _ _ _ _⟩
    | cons id w =>
      obtain ⟨s, v, data, rest, next, rfl, rfl, hv, hlast, hnext, h⟩ := sections_cons_eq_ok h
      simp only [length_cons, length_append] at hbound hn
      obtain ⟨n, rfl⟩ : ∃ k, n = k + 1 := ⟨n - 1, by omega⟩
      have hpayload := payload_withoutNames hnext
      rw [cutNames_section hv] at hbound' ⊢
      by_cases hholds : holdsNames s.toByte data
      · rw [if_pos hholds] at hpayload hbound' ⊢
        have hcustom : s = .custom := by
          simp only [holdsNames, Bool.and_eq_true, decide_eq_true_eq] at hholds
          exact toByte_inj hholds.1
        rw [if_pos hcustom] at h
        rw [← hpayload]
        exact ih h (by omega) (by omega) hbound' pos'
      · rw [if_neg hholds] at hpayload hbound' ⊢
        simp only [length_cons, length_append] at hbound'
        obtain ⟨bound', rfl⟩ : ∃ k, bound' = k + 1 := ⟨bound' - 1, by omega⟩
        have hshort : (cutNames n rest).length ≤ bound' := by omega
        obtain ⟨c', hread⟩ := ih h (by omega) (by omega) hshort (pos' + 1 + v.length)
        have hinside := inside_spells (within_run s.name hpayload)
        refine ⟨c', ?_⟩
        rw [sections_spelled hv hlast]
        exact (bind_of_eq_ok (hinside _ _) _).trans hread

theorem header_word {d : Cursor} {n : UInt32}
    (h : Reader.locating "header" Reader.u32le c = .ok n d) : ∃ w, c.rest = w ++ d.rest ∧
      w.length = 4 ∧ Spells (Reader.locating "header" Reader.u32le) w n := by
  have hlocal : Local Reader.u32le := (Local.bytes 4).bind fun _ => .done _
  obtain ⟨w, hw, hspells⟩ := hlocal.locating "header" c n d h
  refine ⟨w, hw, ?_, hspells⟩
  have hread := hspells [] 0
  unfold Reader.locating at hread
  split at hread
  next hword =>
    cases hread
    obtain ⟨bs, e, hbs, hword⟩ := Reader.of_bind hword
    obtain ⟨-, rfl⟩ := Reader.pure_eq_ok_iff.mp hword
    have hlength := Reader.bytes_length hbs
    rw [Reader.bytes_eq_ok hbs, append_nil] at hlength
    exact hlength.symm
  next => cases hread

/-- Sections are read behind a header of eight bytes. -/
theorem module_eq_ok (h : Reader.module (.start data) = .ok m c) :
    ∃ v w, data = v ++ w ∧ v.length = 8 ∧
      ∀ w, Reader.module (.start (v ++ w)) = sections w.length 0 {} ⟨w, v.length⟩ := by
  obtain ⟨found, d, hmagic, h⟩ := Reader.of_bind h
  by_cases hfound : found = magic
  · subst hfound
    simp only [ne_eq, not_true_eq_false, ↓reduceIte] at h
    obtain ⟨found, e, hversion, h⟩ := Reader.of_bind h
    by_cases hfound : found = version
    · subst hfound
      obtain ⟨v, hv, hvlength, hvspells⟩ := header_word hmagic
      obtain ⟨w, hw, hwlength, hwspells⟩ := header_word hversion
      refine ⟨v ++ w, e.rest, ?_, by simp [hvlength, hwlength], fun rest => ?_⟩
      · rw [append_assoc, ← hw, ← hv]
        rfl
      · unfold Reader.module Cursor.start
        rw [append_assoc, bind_of_eq_ok (hvspells (w ++ rest) 0)]
        simp only [ne_eq, not_true_eq_false, ↓reduceIte]
        rw [bind_of_eq_ok (hwspells rest _)]
        simp only [not_true_eq_false, ↓reduceIte, length_append, Nat.zero_add]
    · simp only [hfound, not_false_eq_true, ↓reduceIte] at h
      obtain ⟨_, _, hthrow, -⟩ := Reader.of_bind h
      exact absurd hthrow Reader.throw_ne_ok
  · simp only [ne_eq, hfound, not_false_eq_true, ↓reduceIte] at h
    obtain ⟨_, _, hthrow, -⟩ := Reader.of_bind h
    exact absurd hthrow Reader.throw_ne_ok

/-- The module that is read without the debug names is the one with them but for these. -/
theorem decode_withoutNames (h : Module.decode data = .ok m) :
    Module.decode (withoutNames data) = .ok m.withoutNames := by
  obtain ⟨c, h⟩ := Reader.run_eq_ok h
  obtain ⟨v, w, rfl, hv, hheader⟩ := module_eq_ok h
  rw [hheader] at h
  have hcut : withoutNames (v ++ w) = v ++ cutNames (v ++ w).length w := by
    rw [withoutNames, ← hv, take_left, drop_left]
  obtain ⟨c', hread⟩ := sections_cutNames h (Nat.le_refl _) (n := (v ++ w).length)
    (by simp) (Nat.le_refl _) v.length
  have hempty : Module.withoutNames {} = {} := rfl
  rw [hempty] at hread
  simp only [hcut, Module.decode, Reader.run, hheader, hread]

end Wire

end HostCatch
