import HostCatch.Proofs.Wire.Storing
import HostCatch.Proofs.Wire.Trailing

namespace HostCatch

open List

/-- Sections one after the other, given by their payloads. -/
def Wire.frames (parts : List (SectionId × Bytes)) : Bytes :=
  parts.flatMap fun part => framed part.1 part.2

namespace Reader

open Wire

variable {α : Type} {m n : Module}
  {parts before after : List (SectionId × Bytes)} {get : Module → α}

/-- The payloads of sections are read one after the other, which takes the module from `m` to `n`. -/
inductive Loads : Module → List (SectionId × Bytes) → Module → Prop
  | nil {m : Module} : Loads m [] m
  | cons {m next n : Module} {s : SectionId} {data : Bytes} {parts : List (SectionId × Bytes)} :
      (payload m s).run data = .ok next → Loads next parts n → Loads m ((s, data) :: parts) n

theorem Reads.loads {last : Nat} (hsize : ∀ part ∈ parts, part.2.length < 2 ^ 32)
    (h : Reads last m (frames parts) n) : Loads m parts n := by
  induction parts generalizing last m with
  | nil =>
    cases h
    exact .nil
  | cons part parts ih =>
    obtain ⟨s, data⟩ := part
    obtain ⟨hdata, hparts⟩ := forall_mem_cons.mp hsize
    rw [frames, flatMap_cons, framed, cons_append] at h
    obtain ⟨-, next, hnext, hrest⟩ := h.of_cons (sectionData_spells hdata)
    exact .cons hnext (ih hparts hrest)

theorem Loads.of_append (h : Loads m (before ++ after) n) :
    ∃ next, Loads m before next ∧ Loads next after n := by
  induction before generalizing m with
  | nil => exact ⟨m, .nil, h⟩
  | cons part before ih =>
    cases h with
    | cons hnext hrest =>
      obtain ⟨next, hbefore, hafter⟩ := ih hrest
      exact ⟨next, .cons hnext hbefore, hafter⟩

/-- A part of a module that only sections `s` have to do with. -/
def Concerns (s : SectionId) (get : Module → α) : Prop :=
  ∀ {m next t data}, t ≠ s → (payload m t).run data = .ok next → get next = get m

theorem Concerns.loads {s : SectionId} (h : Concerns s get) (hparts : ∀ part ∈ parts, part.1 ≠ s)
    (hn : Loads m parts n) : get n = get m := by
  induction hn with
  | nil => rfl
  | cons hnext _ ih =>
    obtain ⟨hs, hrest⟩ := forall_mem_cons.mp hparts
    exact (ih hrest).trans (h hs hnext)

/-- Such a part is what its own sections make of it, wherever these stand. -/
theorem Concerns.alone {s : SectionId} (h : Concerns s get) {own : List (SectionId × Bytes)}
    (hn : Loads m (before ++ (own ++ after)) n) (hbefore : ∀ part ∈ before, part.1 ≠ s)
    (hafter : ∀ part ∈ after, part.1 ≠ s) :
    ∃ k l, get k = get m ∧ Loads k own l ∧ get n = get l := by
  obtain ⟨k, hk, hn⟩ := hn.of_append
  obtain ⟨l, hl, hn⟩ := hn.of_append
  exact ⟨k, l, h.loads hbefore hk, hl, h.loads hafter hn⟩

theorem payload_others {next : Module} {t : SectionId} {data : Bytes}
    (h : (payload m t).run data = .ok next) :
    (t ≠ .imports → next.imports = m.imports) ∧ (t ≠ .funcs → next.funcs = m.funcs) ∧
      (t ≠ .custom → next.customs = m.customs) := by
  obtain ⟨c, h⟩ := run_eq_ok h
  cases t with
  | types =>
    obtain ⟨types, typeDefs, rfl⟩ := typeSection_eq_ok h
    exact ⟨fun _ => rfl, fun _ => rfl, fun _ => rfl⟩
  | _ =>
    obtain ⟨content, d, -, h⟩ := of_bind h
    cases h
    simp

theorem concerns_imports : Concerns .imports Module.imports :=
  fun ht h => (payload_others h).1 ht

theorem concerns_funcs : Concerns .funcs Module.funcs :=
  fun ht h => (payload_others h).2.1 ht

theorem concerns_customs : Concerns .custom Module.customs :=
  fun ht h => (payload_others h).2.2 ht

end Reader

namespace Wire

open Reader

variable {found : SectionId × Bytes} {α : Type} {m n : Module} {write : α → Bytes}

/-- A section that lists entries, left out when it has none. -/
def part {α : Type} (s : SectionId) (write : α → Bytes) (as : List α) : List (SectionId × Bytes) :=
  if as = [] then [] else [(s, list write as)]

theorem entries_eq (s : SectionId) (write : α → Bytes) (as : List α) :
    entries s write as = frames (part s write as) := by
  cases as with
  | nil => rfl
  | cons a as => simp [frames, part, entries]

theorem number_eq (s : SectionId) (n : Option UInt32) :
    number s n = frames (n.map fun n => (s, Leb128.u32 n)).toList := by
  cases n with
  | none => rfl
  | some n => simp [frames, number]

/-- The sections between the declarations of functions and the custom sections. -/
def Module.middle (m : Module) : List (SectionId × Bytes) :=
  part .tables tableType m.tables ++ part .memories limits m.memories ++ part .tags tagType m.tags ++
    part .globals globalEntry m.globals ++ part .exports exportEntry m.exports ++
    (m.start.map fun n => (.start, Leb128.u32 n)).toList ++ part .elements element m.elements ++
    (m.dataCount.map fun n => (.dataCount, Leb128.u32 n)).toList ++ part .code funcBody m.code ++
    part .data dataSegment m.data

def Module.tail (m : Module) : List (SectionId × Bytes) :=
  m.customs.map fun c => (.custom, custom c)

theorem Module.behindTypes_eq (m : Module) : m.behindTypes =
    frames (part .imports importEntry m.imports ++ (part .funcs Leb128.u32 m.funcs ++
      (m.middle ++ m.tail))) := by
  simp only [Module.behindTypes, entries_eq, number_eq, Module.middle, Module.tail, frames,
    flatMap_append, flatMap_map, append_assoc]
  rfl

theorem fst_of_mem_part {s : SectionId} {as : List α} (h : found ∈ part s write as) :
    found.1 = s := by
  unfold part at h
  split at h
  next => cases h
  next => rw [mem_singleton.mp h]

theorem Module.mem_middle (h : found ∈ m.middle) :
    found.1 ≠ .imports ∧ found.1 ≠ .funcs ∧ found.1 ≠ .custom := by
  have hnumber : ∀ {s : SectionId} {n : Option UInt32},
      found ∈ (n.map fun n => (s, Leb128.u32 n)).toList → found.1 = s := by
    rintro s (_ | n) hn
    · cases hn
    · rw [mem_singleton.mp hn]
  simp only [Module.middle, mem_append, or_assoc] at h
  rcases h with h | h | h | h | h | h | h | h | h | h
  case inr.inr.inr.inr.inr.inl | inr.inr.inr.inr.inr.inr.inr.inl =>
    rw [hnumber h]
    decide
  all_goals
    rw [fst_of_mem_part h]
    decide

theorem length_lt_frames {parts : List (SectionId × Bytes)} (h : found ∈ parts) :
    found.2.length < (frames parts).length := by
  have hle : (framed found.1 found.2).length ≤ (frames parts).length :=
    length_le_of_mem (fun part : SectionId × Bytes => framed part.1 part.2) h
  rw [framed, length_cons, length_append] at hle
  omega

theorem Loads.part {s : SectionId} {p : Reader α} {as bs : List α} (put : Module → List α → Module)
    (h : Loads m (Wire.part s write as) n)
    (hs : payload m s = Reader.list p >>= fun as => pure (put m as))
    (hmeans : Means (Reader.list p) (list write as) bs) : as = [] ∧ n = m ∨ n = put m bs := by
  unfold Wire.part at h
  split at h
  next hnone =>
    cases h
    exact .inl ⟨hnone, rfl⟩
  next =>
    cases h with
    | cons hnext hrest =>
      cases hrest
      obtain ⟨c, hread⟩ := run_eq_ok hnext
      rw [hs] at hread
      have hfound := hmeans.bind_pure (f := put m) [] 0 n c (by rwa [append_nil])
      exact .inr hfound.1

theorem Loads.customs {customs : List Custom} (hsize : ∀ c ∈ customs, (custom c).length < 2 ^ 32)
    (h : Loads m (customs.map fun c => (.custom, custom c)) n) :
    n.customs = m.customs ++ customs := by
  induction customs generalizing m with
  | nil =>
    cases h
    exact (append_nil _).symm
  | cons c customs ih =>
    obtain ⟨hc, hcustoms⟩ := forall_mem_cons.mp hsize
    cases h with
    | cons hnext hrest =>
      cases hnext.symm.trans (run_bind_pure _ (custom_run hc))
      rw [ih hcustoms hrest, append_assoc, singleton_append]

theorem Module.typePart_frames {w : Bytes} (h : m.typePart = .ok w) :
    ∃ parts, w = frames parts ∧ ∀ part ∈ parts, part.1 = .types := by
  unfold Module.typePart at h
  split at h
  next =>
    cases h
    exact ⟨[], rfl, fun part hpart => absurd hpart not_mem_nil⟩
  next =>
    obtain ⟨data, -, rfl⟩ := map_eq_ok_iff.mp h
    refine ⟨[(.types, data)], by simp [frames], fun part hpart => ?_⟩
    rw [mem_singleton.mp hpart]

theorem importEntries_means {imports : List Import} (h : ∀ i ∈ imports, i.desc.Sketched)
    (hsize : (list importEntry imports).length < 2 ^ 32) :
    Means (Reader.list Reader.importEntry) (list importEntry imports) (imports.map Import.stored) := by
  have hsame : list importEntry (imports.map Import.stored) = list importEntry imports := by
    simp only [list, length_map, flatMap_map, importEntry_stored]
  rw [← hsame]
  refine Means.list (forall_mem_map.mpr fun i hi hsize => ?_)
    (fun i _ => importEntry_ne_nil i) (hsame ▸ hsize)
  rw [importEntry_stored] at hsize ⊢
  exact importEntry_means (h i hi) hsize

/-- What is read from the bytes of a module loads its sections in order. -/
theorem Module.decode_loads {w : Bytes} (hw : m.encode = .ok w) (hlength : w.length < 2 ^ 32)
    (hn : Module.decode w = .ok n) :
    ∃ parts, (∀ found ∈ parts, found.1 = .types) ∧ Loads {} (parts ++
      (part .imports importEntry m.imports ++ (part .funcs Leb128.u32 m.funcs ++
        (m.middle ++ m.tail)))) n := by
  obtain ⟨w, htypes, rfl⟩ := Module.encode_eq_ok_iff.mp hw
  obtain ⟨parts, rfl, hparts⟩ := Module.typePart_frames htypes
  refine ⟨parts, hparts, ?_⟩
  obtain ⟨c, hn⟩ := run_eq_ok hn
  rw [module_header] at hn
  have hreads := Reads.of_sections hn (Nat.le_refl _)
  rw [Module.behindTypes_eq, frames, frames, ← flatMap_append] at hreads
  -- All sections are within the bytes, so their sizes are written as they are.
  refine hreads.loads fun found hfound => Nat.lt_trans (length_lt_frames hfound) ?_
  rw [Module.behindTypes_eq, frames, frames] at hlength
  simp only [frames, flatMap_append, length_append] at hlength ⊢
  omega

/-- Of a module that was written and could be read again, imports, declarations of functions and custom
sections are what was written, whatever its other sections hold. -/
theorem Module.decode_loaded (himports : ∀ i ∈ m.imports, i.desc.Sketched) {w : Bytes}
    (hw : m.encode = .ok w) (hlength : w.length < 2 ^ 32) (hn : Module.decode w = .ok n) :
    n.imports = m.imports.map Import.stored ∧ n.funcs = m.funcs ∧ n.customs = m.customs := by
  have hfits : m.Fits := by
    obtain ⟨w, -, rfl⟩ := Module.encode_eq_ok_iff.mp hw
    exact Module.fits_of_length (by simp only [length_append] at hlength; omega)
  obtain ⟨parts, hparts, hread⟩ := Module.decode_loads hw hlength hn
  have htypes : ∀ {s : SectionId}, s ≠ .types → ∀ found ∈ parts, found.1 ≠ s :=
    fun hne found hfound heq => hne (heq.symm.trans (hparts found hfound))
  have hpart : ∀ {α : Type} {write : α → Bytes} {as : List α} {s t : SectionId}, s ≠ t →
      ∀ found ∈ part t write as, found.1 ≠ s :=
    fun hne found hfound heq => hne (heq.symm.trans (fst_of_mem_part hfound))
  have htail : ∀ {s : SectionId}, s ≠ .custom → ∀ found ∈ m.tail, found.1 ≠ s := by
    rintro s hne found hfound heq
    obtain ⟨c, -, rfl⟩ := mem_map.mp hfound
    exact hne heq.symm
  refine ⟨?_, ?_, ?_⟩
  · obtain ⟨k, l, hk, hl, hn⟩ := concerns_imports.alone hread (htypes (by decide))
      (forall_mem_append.mpr ⟨hpart (by decide), forall_mem_append.mpr
        ⟨fun _ h => (mem_middle h).1, htail (by decide)⟩⟩)
    rw [hn]
    have hmeans := importEntries_means himports hfits.imports
    rcases Loads.part (fun m imports => { m with imports }) hl rfl hmeans with ⟨hnone, rfl⟩ | rfl
    · rw [hk, hnone]
      rfl
    · rfl
  · rw [← append_assoc] at hread
    obtain ⟨k, l, hk, hl, hn⟩ := concerns_funcs.alone hread
      (forall_mem_append.mpr ⟨htypes (by decide), hpart (by decide)⟩)
      (forall_mem_append.mpr ⟨fun _ h => (mem_middle h).2.1, htail (by decide)⟩)
    have hmeans := Means.list (fun i _ _ => (u32_spells i).means)
      (fun i _ => Leb128.u32_ne_nil i) hfits.funcs
    rw [hn]
    rcases Loads.part (fun m funcs => { m with funcs }) hl rfl hmeans with ⟨hnone, rfl⟩ | rfl
    · rw [hk, hnone]
    · rfl
  · rw [← append_assoc, ← append_assoc, ← append_assoc, ← append_nil m.tail] at hread
    obtain ⟨k, l, hk, hl, hn⟩ := concerns_customs.alone hread
      (forall_mem_append.mpr ⟨forall_mem_append.mpr ⟨forall_mem_append.mpr
        ⟨htypes (by decide), hpart (by decide)⟩, hpart (by decide)⟩, fun _ h => (mem_middle h).2.2⟩)
      (fun _ h => absurd h not_mem_nil)
    rw [hn, Loads.customs hfits.customs hl, hk]
    rfl

end Wire

end HostCatch
