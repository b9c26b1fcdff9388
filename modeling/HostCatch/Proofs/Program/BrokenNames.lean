import Mathlib.Data.List.Induction
import HostCatch.Proofs.Program.Naming
import HostCatch.Proofs.Wire.Shrinking

namespace HostCatch

open List

theorem Reader.nameSubsection_length {c c' : Cursor} {s : NameSubsection}
    (h : nameSubsection c = .ok s c') : c'.rest.length < c.rest.length := by
  obtain ⟨id, d, hid, h⟩ := of_bind h
  obtain ⟨n, e, hn, h⟩ := of_bind h
  obtain ⟨here, e', hhere, h⟩ := of_bind h
  cases hhere
  have hbyte := byte_length hid
  have hnumber := readU32_shrinks _ _ _ hn
  split at h
  next => exact absurd h throw_ne_ok
  next =>
    obtain ⟨data, f, hdata, h⟩ := of_bind h
    obtain ⟨-, rfl⟩ := pure_eq_ok_iff.mp h
    have hbytes := bytes_length hdata
    omega

/-- The names of functions that a subsection holds, unless it cannot be read. -/
def NameSubsection.entries? (s : NameSubsection) : Option (List NameEntry) :=
  if s.id = funcs then (Reader.nameMap.run s.data).toOption else some []

namespace NameScan

variable {bound : Nat} {found : NameScan} {c : Cursor} {entries : List NameEntry}

/-- Between two cursors lie whole subsections that can be read, with these names of functions. -/
inductive Lists : Cursor → List NameEntry → Cursor → Prop
  | nil (c : Cursor) : Lists c [] c
  | cons {c c' c'' : Cursor} {s : NameSubsection} {entries more : List NameEntry} :
      Reader.nameSubsection c = .ok s c' → s.entries? = some entries → Lists c' more c'' →
      Lists c (entries ++ more) c''

/-- There is something left, and it does not start with a subsection that can be read. -/
structure Stuck (c : Cursor) : Prop where
  left : c.rest ≠ []
  unreadable : ∀ s c', Reader.nameSubsection c = .ok s c' → s.entries? = none

/-- A section cannot be read to its end, and these names of functions stand before that place. -/
def Breaks (data : Bytes) (entries : List NameEntry) : Prop :=
  ∃ c, Lists (.start data) entries c ∧ Stuck c

theorem scan_of_stuck (h : Stuck c) (hbound : c.rest.length ≤ bound) :
    scan bound found c = found := by
  have hleft : c.rest.isEmpty = false := isEmpty_eq_false_iff.mpr h.left
  have hpos := length_pos_iff.mpr h.left
  obtain ⟨bound, rfl⟩ : ∃ n, bound = n + 1 := ⟨bound - 1, by omega⟩
  rw [scan, hleft]
  split
  next hempty => cases hempty
  next =>
    split
    next => rfl
    next s d hread =>
      have hnone := h.unreadable s d hread
      unfold NameSubsection.entries? at hnone
      split
      next hid =>
        rw [if_pos hid] at hnone
        split
        next => rfl
        next entries hentries =>
          rw [hentries] at hnone
          cases hnone
      next hid =>
        rw [if_neg hid] at hnone
        cases hnone

theorem scan_succ_of_entries (bound : Nat) (found : NameScan) {c' : Cursor} {s : NameSubsection}
    (hread : Reader.nameSubsection c = .ok s c') (hentries : s.entries? = some entries) : ∃ others,
      scan (bound + 1) found c =
        scan bound { found with funcs := found.funcs ++ entries, others } c' := by
  have hleft : c.rest.isEmpty = false := by
    refine isEmpty_eq_false_iff.mpr fun hempty => ?_
    have hlength := Reader.nameSubsection_length hread
    rw [hempty] at hlength
    cases hlength
  rw [scan, hleft, hread]
  unfold NameSubsection.entries? at hentries
  by_cases hid : s.id = NameSubsection.funcs
  · rw [if_pos hid] at hentries
    cases hmap : Reader.nameMap.run s.data with
    | error fault =>
      rw [hmap] at hentries
      cases hentries
    | ok listed =>
      rw [hmap] at hentries
      cases hentries
      refine ⟨found.others, ?_⟩
      simp [hid, hmap]
  · rw [if_neg hid] at hentries
    cases hentries
    refine ⟨found.others ++ [s], ?_⟩
    simp [hid]

/-- The names before what cannot be read are found, and those only. -/
theorem Lists.scan {c' : Cursor} (h : Lists c entries c') (hstuck : Stuck c')
    (hbound : c.rest.length ≤ bound) (found : NameScan) :
    (NameScan.scan bound found c).funcs = found.funcs ++ entries ∧
      (NameScan.scan bound found c).complete = found.complete := by
  induction h generalizing bound found with
  | nil c =>
    rw [scan_of_stuck hstuck hbound, append_nil]
    exact ⟨rfl, rfl⟩
  | @cons c d c' s entries more hread hentries _ ih =>
    have hless := Reader.nameSubsection_length hread
    obtain ⟨bound, rfl⟩ : ∃ n, bound = n + 1 := ⟨bound - 1, by omega⟩
    obtain ⟨others, hscan⟩ := scan_succ_of_entries bound found hread hentries
    rw [hscan, ← append_assoc]
    exact ih hstuck (by omega) _

/-- A scan that does not reach the end got stuck after whole subsections. -/
theorem lists_of_scan (hbound : c.rest.length ≤ bound) (h : (scan bound found c).complete = false) :
    ∃ entries c', Lists c entries c' ∧ Stuck c' := by
  induction bound generalizing found c with
  | zero =>
    have hempty : c.rest = [] := length_eq_zero_iff.mp (Nat.le_zero.mp hbound)
    rw [scan, hempty] at h
    cases h
  | succ bound ih =>
    by_cases hstuck : Stuck c
    · exact ⟨[], c, .nil c, hstuck⟩
    · have hleft : c.rest ≠ [] := by
        intro hempty
        rw [scan, hempty] at h
        cases h
      obtain ⟨s, d, hread, hsome⟩ : ∃ s d, Reader.nameSubsection c = .ok s d ∧ s.entries? ≠ none := by
        by_contra hnone
        refine hstuck ⟨hleft, fun s d hread => ?_⟩
        by_contra hsome
        exact hnone ⟨s, d, hread, hsome⟩
      obtain ⟨entries, hentries⟩ := Option.ne_none_iff_exists'.mp hsome
      obtain ⟨others, hscan⟩ := scan_succ_of_entries bound found hread hentries
      have hless := Reader.nameSubsection_length hread
      rw [hscan] at h
      obtain ⟨more, c', hmore, hstuck⟩ := ih (by omega) h
      exact ⟨entries ++ more, c', .cons hread hentries hmore, hstuck⟩

/-- The scan finds exactly what stands before the place where a section breaks. -/
theorem breaks_iff {data : Bytes} : Breaks data entries ↔
    (ofBytes data).complete = false ∧ (ofBytes data).funcs = entries := by
  constructor
  · rintro ⟨c, hlists, hstuck⟩
    obtain ⟨hfuncs, hcomplete⟩ := hlists.scan hstuck (Nat.le_refl _) ⟨[], [], false⟩
    exact ⟨hcomplete, hfuncs⟩
  · rintro ⟨hcomplete, rfl⟩
    obtain ⟨entries, c, hlists, hstuck⟩ :=
      lists_of_scan (c := .start data) (Nat.le_refl _) hcomplete
    have hfuncs := (hlists.scan hstuck (Nat.le_refl _) ⟨[], [], false⟩).1
    rw [nil_append] at hfuncs
    exact ⟨c, hfuncs ▸ hlists, hstuck⟩

end NameScan

/-- The name that the last entry for an index gives. -/
def NameEntry.lastFor (entries : List NameEntry) (index : Nat) : Option Bytes :=
  ((entries.filter fun e => e.index.toNat = index).getLast?).map NameEntry.name

namespace Program

open NameScan

/-- Each function has the name that was listed last for it. -/
theorem foldl_assignName_getElem? (p : Program) (entries : List NameEntry) (id : Nat) :
    (entries.foldl assignName p).funcs[id]? =
      p.funcs[id]?.map fun f : Function =>
        { f with name := (NameEntry.lastFor entries id).getD f.name } := by
  induction entries using List.reverseRecOn with
  | nil =>
    rw [foldl_nil]
    cases p.funcs[id]? <;> rfl
  | append_singleton entries e ih =>
    rw [foldl_append, foldl_cons, foldl_nil, assignName, setName]
    simp only [getElem?_modify, ih, NameEntry.lastFor, filter_append]
    by_cases hid : e.index.toNat = id
    · cases p.funcs[id]? <;> simp [hid]
    · cases p.funcs[id]? <;> simp [hid]

/-- A section of names that breaks is kept as it is, and the subsections kept before stay. Of the names
that stand before the break, though, each function takes the last one that is listed for it: the section
leaves no more than its own bytes exactly if these are the names that the functions had. -/
theorem takeCustom_breaks {c : Wire.Custom} {entries : List NameEntry} (p : Program)
    (hname : c.name = nameSectionName) (hbreaks : Breaks c.data entries) :
    (∃ funcs, p.takeCustom c = { p with funcs, customs := p.customs ++ [c] }) ∧
      (∀ id, (p.takeCustom c).funcs[id]? =
        p.funcs[id]?.map fun f : Function =>
          { f with name := (NameEntry.lastFor entries id).getD f.name }) ∧
      (p.takeCustom c = { p with customs := p.customs ++ [c] } ↔
        ∀ id f name, p.funcs[id]? = some f → NameEntry.lastFor entries id = some name →
          name = f.name) := by
  obtain ⟨hcomplete, rfl⟩ := breaks_iff.mp hbreaks
  obtain ⟨funcs, hfuncs⟩ := foldl_assignName p (ofBytes c.data).funcs
  have htake : p.takeCustom c = { p with funcs, customs := p.customs ++ [c] } := by
    unfold takeCustom
    simp only [hname, hcomplete, hfuncs, ↓reduceIte, Bool.false_eq_true]
  have hnames : ∀ id, funcs[id]? = p.funcs[id]?.map fun f : Function =>
      { f with name := (NameEntry.lastFor (ofBytes c.data).funcs id).getD f.name } := by
    intro id
    have hassigned := foldl_assignName_getElem? p (ofBytes c.data).funcs id
    rwa [hfuncs] at hassigned
  refine ⟨⟨funcs, htake⟩, fun id => by rw [htake]; exact hnames id, ?_⟩
  have hsame : p.takeCustom c = { p with customs := p.customs ++ [c] } ↔ funcs = p.funcs := by
    rw [htake]
    constructor
    · exact fun h => congrArg Program.funcs h
    · rintro rfl
      rfl
  rw [hsame]
  constructor
  · intro hkept id f name hf hlast
    have hid := hnames id
    rw [hkept, hf, Option.map_some, hlast, Option.getD_some] at hid
    exact (congrArg Function.name (Option.some.inj hid)).symm
  · intro hlast
    refine ext_getElem? fun id => ?_
    rw [hnames id]
    cases hf : p.funcs[id]? with
    | none => rfl
    | some f =>
      cases hnamed : NameEntry.lastFor (ofBytes c.data).funcs id with
      | none => rfl
      | some name =>
        rw [hlast id f name hf hnamed]
        rfl

/-- A section that names the first function and breaks in the subsection after that. -/
def cutNames : Wire.Custom :=
  ⟨nameSectionName, [1, 4, 1, 0, 1, 0x66, 2, 5, 0]⟩

/-- A program of one function. -/
def singleFunction (name : Bytes) : Program :=
  { types := [⟨[], []⟩], funcs := [⟨name, 0, .defined {}⟩] }

/-- Where the function has that name already, only the bytes are kept. -/
theorem cutNames_again :
    Breaks cutNames.data [⟨0, [0x66]⟩] ∧
      (singleFunction [0x66]).takeCustom cutNames =
        { singleFunction [0x66] with customs := [cutNames] } := by
  have hbreaks : Breaks cutNames.data [⟨0, [0x66]⟩] := breaks_iff.mpr ⟨by decide, by decide⟩
  refine ⟨hbreaks, (takeCustom_breaks _ rfl hbreaks).2.2.mpr fun id f name hf hlast => ?_⟩
  cases id with
  | zero =>
    cases hf
    cases hlast
    rfl
  | succ id => cases hf

/-- A function without a name gets one from a section that cannot be read. -/
theorem cutNames_named :
    Breaks cutNames.data [⟨0, [0x66]⟩] ∧
      ((singleFunction []).takeCustom cutNames).funcs = (singleFunction [0x66]).funcs ∧
      ((singleFunction []).takeCustom cutNames).funcs ≠ (singleFunction []).funcs :=
  ⟨breaks_iff.mpr ⟨by decide, by decide⟩, by rfl, by decide⟩

end Program

end HostCatch
