import HostCatch.Proofs.Program.Bodies
import HostCatch.Proofs.Program.Emission
import HostCatch.Proofs.Wire.Sections

namespace HostCatch

open List

/-- Entries in the order in which they are written. -/
def NameEntry.sorted (entries : List NameEntry) : List NameEntry :=
  entries.mergeSort fun a b => a.index ≤ b.index

def IndirectNames.sorted (entries : List IndirectNames) : List IndirectNames :=
  (entries.mergeSort fun a b => a.index ≤ b.index).map
    fun e => { e with names := NameEntry.sorted e.names }

theorem pairwise_index {α : Type} (index : α → UInt32) (as : List α) :
    (as.mergeSort fun a b => index a ≤ index b).Pairwise
      fun a b => decide (index a ≤ index b) = true := by
  refine pairwise_mergeSort (fun a b c hab hbc => ?_) (fun a b => ?_) as
  · simp only [decide_eq_true_eq] at hab hbc ⊢
    exact UInt32.le_trans hab hbc
  · simp only [Bool.or_eq_true, decide_eq_true_eq]
    exact UInt32.le_total (index a) (index b)

theorem NameEntry.sorted_sorted (entries : List NameEntry) :
    sorted (sorted entries) = sorted entries :=
  mergeSort_of_pairwise (pairwise_index NameEntry.index entries)

theorem IndirectNames.sorted_sorted (entries : List IndirectNames) :
    sorted (sorted entries) = sorted entries := by
  have hpairwise : (sorted entries).Pairwise fun a b => decide (a.index ≤ b.index) = true :=
    pairwise_map.mpr (pairwise_index IndirectNames.index entries)
  have hsame : (sorted entries).map (fun e => { e with names := NameEntry.sorted e.names }) =
      sorted entries := by
    unfold sorted
    rw [map_map]
    refine map_congr_left fun e _ => ?_
    simp only [Function.comp_apply, NameEntry.sorted_sorted]
  calc sorted (sorted entries) = ((sorted entries).mergeSort fun a b => a.index ≤ b.index).map
          (fun e => { e with names := NameEntry.sorted e.names }) := rfl
    _ = sorted entries := by rw [mergeSort_of_pairwise hpairwise, hsame]

namespace Wire

open Reader

theorem debugName_spells {name : Bytes} (h : name.length < 2 ^ 32) :
    Spells Reader.debugName (size name.length ++ name) name := by
  refine (Leb128.readU32_spells _).bind ?_
  rw [toNat_ofNat_size h]
  intro rest pos
  refine Reader.bind_eq_ok_iff.mpr ⟨_, _, rfl, ?_⟩
  simp only [length_append, Nat.not_lt.mpr (Nat.le_add_right name.length rest.length), ↓reduceIte]
  exact Spells.bytes name rest pos

theorem nameEntry_spelled (e : NameEntry) : Spelled Reader.nameEntry nameEntry e := by
  intro hlength
  unfold nameEntry at hlength ⊢
  simp only [append_assoc, length_append] at hlength ⊢
  exact (Leb128.readU32_spells e.index).bind (debugName_spells (by omega)).bind_pure

theorem nameList_spelled (entries : List NameEntry) :
    Spelled Reader.nameMap (list nameEntry) entries :=
  counted_spelled Leb128.readU32_spells (fun e _ => nameEntry_spelled e) nofun

theorem nameMap_sorted (entries : List NameEntry) :
    nameMap (NameEntry.sorted entries) = nameMap entries :=
  congrArg (list nameEntry) (NameEntry.sorted_sorted entries)

theorem nameMap_run {entries : List NameEntry} (h : (nameMap entries).length < 2 ^ 32) :
    Reader.nameMap.run (nameMap entries) = .ok (NameEntry.sorted entries) :=
  (nameList_spelled _ h).run_self

theorem indirectNameMap_eq (entries : List IndirectNames) :
    indirectNameMap entries = list indirectNames (IndirectNames.sorted entries) := by
  have hsame : ∀ e : IndirectNames,
      indirectNames { e with names := NameEntry.sorted e.names } = indirectNames e := by
    intro e
    simp only [indirectNames, nameMap_sorted]
  simp only [indirectNameMap, IndirectNames.sorted, list, length_map, flatMap_map, hsame]

theorem indirectNameMap_sorted (entries : List IndirectNames) :
    indirectNameMap (IndirectNames.sorted entries) = indirectNameMap entries := by
  rw [indirectNameMap_eq, IndirectNames.sorted_sorted, ← indirectNameMap_eq]

/-- Names of locals and labels are read in order of their indices. -/
theorem indirectNameMap_run {entries : List IndirectNames}
    (h : (indirectNameMap entries).length < 2 ^ 32) :
    Reader.indirectNameMap.run (indirectNameMap entries) = .ok (IndirectNames.sorted entries) := by
  have hspelled : Spelled Reader.indirectNameMap (list indirectNames)
      (IndirectNames.sorted entries) := by
    refine counted_spelled Leb128.readU32_spells (fun e he hlength => ?_) nofun
    obtain ⟨f, -, rfl⟩ := mem_map.mp he
    simp only [indirectNames, nameMap_sorted, length_append] at hlength ⊢
    refine (Leb128.readU32_spells f.index).bind (Spells.bind_pure ?_)
    exact nameList_spelled (NameEntry.sorted f.names)
      (Nat.lt_of_le_of_lt (Nat.le_add_left _ _) hlength)
  rw [indirectNameMap_eq] at h ⊢
  exact (hspelled h).run_self

theorem nameSubsection_spelled (s : NameSubsection) :
    Spelled Reader.nameSubsection nameSubsection s := by
  intro hlength
  unfold nameSubsection at hlength ⊢
  simp only [length_cons, length_append] at hlength
  refine Spells.bind (v := [s.id]) (.byte s.id) ((Leb128.readU32_spells _).bind ?_)
  rw [toNat_ofNat_size (by omega)]
  intro rest pos
  refine Reader.bind_eq_ok_iff.mpr ⟨_, _, rfl, ?_⟩
  simp only [length_append, Nat.not_lt.mpr (Nat.le_add_right s.data.length rest.length), ↓reduceIte]
  exact (Spells.bytes s.data).bind_pure rest pos

end Wire

namespace NameScan

/-- The bytes `w` are subsections that take what was found from `found` to `found'`. -/
def Extends (found : NameScan) (w : Bytes) (found' : NameScan) : Prop :=
  w.length < 2 ^ 32 → ∀ rest pos bound, w.length + rest.length ≤ bound →
    ∃ pos' bound', rest.length ≤ bound' ∧
      scan bound found ⟨w ++ rest, pos⟩ = scan bound' found' ⟨rest, pos'⟩

namespace Extends

theorem refl (found : NameScan) : Extends found [] found := by
  intro _ rest pos bound hbound
  exact ⟨pos, bound, by simpa using hbound, rfl⟩

theorem trans {found found' found'' : NameScan} {v w : Bytes} (hv : Extends found v found')
    (hw : Extends found' w found'') : Extends found (v ++ w) found'' := by
  intro hlength rest pos bound hbound
  rw [length_append] at hlength hbound
  obtain ⟨pos', bound', hbound', hread⟩ :=
    hv (by omega) (w ++ rest) pos bound (by rw [length_append]; omega)
  rw [length_append] at hbound'
  obtain ⟨pos'', bound'', hbound'', hread'⟩ := hw (by omega) rest pos' bound' hbound'
  exact ⟨pos'', bound'', hbound'', by rw [append_assoc, hread, hread']⟩

theorem subsection {found found' : NameScan} (s : NameSubsection)
    (h : (Wire.nameSubsection s).length < 2 ^ 32 → ∀ bound c, (if s.id = NameSubsection.funcs then
        match Reader.nameMap.run s.data with
        | .error _ => found
        | .ok entries => scan bound { found with funcs := found.funcs ++ entries } c
      else scan bound { found with others := found.others ++ [s] } c) = scan bound found' c) :
    Extends found (Wire.nameSubsection s) found' := by
  intro hlength rest pos bound hbound
  obtain ⟨bound, rfl⟩ : ∃ n, bound = n + 1 := by
    refine ⟨bound - 1, ?_⟩
    simp only [Wire.nameSubsection, length_cons] at hbound
    omega
  refine ⟨pos + (Wire.nameSubsection s).length, bound, ?_, ?_⟩
  · simp only [Wire.nameSubsection, length_cons] at hbound
    omega
  · have hread := Wire.nameSubsection_spelled s hlength rest pos
    have hsome : (Wire.nameSubsection s ++ rest).isEmpty = false := rfl
    rw [scan]
    simp only [hsome, Bool.false_eq_true, ↓reduceIte, hread]
    exact h hlength bound _

theorem others (found : NameScan) {subs : List NameSubsection}
    (h : ∀ s ∈ subs, s.id ≠ NameSubsection.funcs) :
    Extends found (subs.flatMap Wire.nameSubsection)
      { found with others := found.others ++ subs } := by
  induction subs generalizing found with
  | nil =>
    rw [append_nil]
    exact .refl found
  | cons s subs ih =>
    have hfirst : Extends found (Wire.nameSubsection s)
        { found with others := found.others ++ [s] } :=
      .subsection s fun _ bound c => if_neg (h s (by simp))
    have hrest := hfirst.trans (ih _ fun s hs => h s (by simp [hs]))
    simp only [append_assoc, singleton_append] at hrest
    exact hrest

theorem funcs (found : NameScan) (entries : List NameEntry) :
    Extends found (Wire.nameSubsection ⟨NameSubsection.funcs, Wire.nameMap entries⟩)
      { found with funcs := found.funcs ++ NameEntry.sorted entries } := by
  refine .subsection _ fun hlength bound c => ?_
  simp only [Wire.nameSubsection, length_cons, length_append] at hlength
  rw [if_pos rfl, Wire.nameMap_run (by omega)]

theorem ofBytes {w : Bytes} {found : NameScan} (h : Extends ⟨[], [], false⟩ w found)
    (hlength : w.length < 2 ^ 32) : NameScan.ofBytes w = { found with complete := true } := by
  obtain ⟨pos, bound, -, hread⟩ := h hlength [] 0 w.length (Nat.le_refl _)
  rw [append_nil] at hread
  rw [NameScan.ofBytes, Cursor.start, hread]
  cases bound <;> rfl

end Extends

end NameScan

namespace Program

variable {p u : Program} {numbering : Numbering} {fs : List Function} {customs : List Wire.Custom}
  {others : List NameSubsection} {names : List NameEntry} {s : NameSubsection}

/-- The names of functions that stand from a position on, with these positions. -/
def namesFrom : Nat → List Function → List NameEntry
  | _, [] => []
  | start, f :: fs =>
    if f.name = [] then namesFrom (start + 1) fs
    else ⟨UInt32.ofNat start, f.name⟩ :: namesFrom (start + 1) fs

theorem functionNames_eq (h : numbering.funcs = List.range p.funcs.length) :
    p.functionNames numbering = namesFrom 0 p.funcs := by
  have hall : ∀ (fs : List Function) start, start + fs.length ≤ p.funcs.length →
      ((fs.zipIdx start).filter (·.1.name ≠ [])).map (fun e =>
        (⟨Numbering.indexIn numbering.funcs e.2, e.1.name⟩ : NameEntry)) = namesFrom start fs := by
    intro fs
    induction fs with
    | nil => exact fun _ _ => rfl
    | cons f fs ih =>
      intro start hlength
      rw [length_cons] at hlength
      have hindex : Numbering.indexIn numbering.funcs start = UInt32.ofNat start := by
        rw [h, Numbering.indexIn_range (by omega)]
      rw [zipIdx_cons, filter_cons, namesFrom, ← ih (start + 1) (by omega)]
      by_cases hname : f.name = []
      · simp [hname]
      · simp [hname, hindex]
  exact hall p.funcs 0 (by omega)

theorem namesFrom_congr {gs : List Function} (h : fs.map Function.name = gs.map Function.name)
    (start : Nat) : namesFrom start fs = namesFrom start gs := by
  induction fs generalizing gs start with
  | nil =>
    rw [map_eq_nil_iff.mp h.symm]
  | cons f fs ih =>
    cases gs with
    | nil => cases h
    | cons g gs =>
      simp only [map_cons, List.cons.injEq] at h
      rw [namesFrom, namesFrom, h.1, ih h.2]

theorem le_of_mem_namesFrom {k : Nat} (h : k + fs.length ≤ 2 ^ 32) {e : NameEntry}
    (he : e ∈ namesFrom k fs) : k ≤ e.index.toNat := by
  induction fs generalizing k with
  | nil => cases he
  | cons f fs ih =>
    rw [length_cons] at h
    have hrest := fun he => ih (k := k + 1) (by omega) he
    rw [namesFrom] at he
    split at he
    next => exact Nat.le_of_succ_le (hrest he)
    next =>
      rcases mem_cons.mp he with rfl | he
      · exact Nat.le_of_eq (Reader.toNat_ofNat_size (by omega)).symm
      · exact Nat.le_of_succ_le (hrest he)

theorem sorted_namesFrom {k : Nat} (h : k + fs.length ≤ 2 ^ 32) :
    NameEntry.sorted (namesFrom k fs) = namesFrom k fs := by
  refine mergeSort_of_pairwise ?_
  induction fs generalizing k with
  | nil => exact .nil
  | cons f fs ih =>
    rw [length_cons] at h
    have hrest := ih (k := k + 1) (by omega)
    rw [namesFrom]
    split
    next => exact hrest
    next =>
      refine pairwise_cons.mpr ⟨fun e he => ?_, hrest⟩
      have hle := le_of_mem_namesFrom (k := k + 1) (by omega) he
      rw [decide_eq_true_eq, UInt32.le_iff_toNat_le, Reader.toNat_ofNat_size (by omega)]
      omega

theorem modify_length {α : Type} (before : List α) (a : α) (rest : List α) (g : α → α) :
    (before ++ a :: rest).modify before.length g = before ++ g a :: rest := by
  induction before with
  | nil => rfl
  | cons b before ih => simp [ih]

theorem foldl_namesFrom (before : List Function) (hu : u.funcs = before ++ fs.map Function.unnamed)
    (h : before.length + fs.length ≤ 2 ^ 32) :
    (namesFrom before.length fs).foldl assignName u = { u with funcs := before ++ fs } := by
  induction fs generalizing u before with
  | nil =>
    rw [map_nil] at hu
    rw [← hu]
    rfl
  | cons f fs ih =>
    rw [length_cons] at h
    have hrest : ∀ v : Program, v.funcs = before ++ [f] ++ fs.map Function.unnamed →
        (namesFrom (before.length + 1) fs).foldl assignName v =
          { v with funcs := before ++ f :: fs } := by
      intro v hv
      have hall := ih _ hv (by rw [length_append, length_singleton]; omega)
      rwa [length_append, length_singleton, append_assoc, singleton_append] at hall
    rw [namesFrom]
    split
    next hname =>
      refine hrest u ?_
      have hunnamed : f.unnamed = f := by
        rw [Function.unnamed, ← hname]
      rw [hu, map_cons, hunnamed, append_assoc, singleton_append]
    next =>
      have hindex : (UInt32.ofNat before.length).toNat = before.length :=
        Reader.toNat_ofNat_size (by omega)
      rw [foldl_cons, hrest]
      · rfl
      · simp only [assignName, setName, hindex, hu, map_cons, modify_length]
        simp [Function.unnamed]

/-- The subsections that are written for names: those of functions stand in their place. -/
def nameSections (others : List NameSubsection) (names : List NameEntry) : List NameSubsection :=
  others.takeWhile (·.id ≤ NameSubsection.funcs) ++
    (if names = [] then [] else [⟨NameSubsection.funcs, Wire.nameMap names⟩]) ++
    others.dropWhile (·.id ≤ NameSubsection.funcs)

/-- The section that is written for names, when there is anything to write. -/
def nameCustoms (others : List NameSubsection) (names : List NameEntry) : List Wire.Custom :=
  if nameSections others names = [] then []
  else [⟨nameSectionName, (nameSections others names).flatMap Wire.nameSubsection⟩]

/-- Each subsection with new indices. -/
def Refollows (numbering : Numbering) (s s' : NameSubsection) : Prop :=
  s'.id = s.id ∧ followNames numbering s = .ok s'.data

theorem nameSubsections_eq_ok_iff {subs : List NameSubsection} :
    p.nameSubsections numbering = .ok subs ↔ ∃ others,
      Forall₂ (Refollows numbering) p.names others ∧
        subs = nameSections others (p.functionNames numbering) := by
  have hmap : ∀ others, (p.names.mapM fun s => do
        pure (⟨s.id, ← followNames numbering s⟩ : NameSubsection)) = .ok others ↔
      Forall₂ (Refollows numbering) p.names others := by
    intro others
    rw [mapM_eq_ok_iff]
    refine ⟨fun h => h.imp fun s s' hs => ?_, fun h => h.imp fun s s' hs => ?_⟩
    · obtain ⟨data, hdata, hs⟩ := of_bind hs
      cases hs
      exact ⟨rfl, hdata⟩
    · obtain ⟨id, data⟩ := s'
      obtain ⟨rfl, hdata⟩ := hs
      exact bind_eq_ok_iff.mpr ⟨data, hdata, rfl⟩
  unfold nameSubsections nameSections
  simp only [bind_eq_ok_iff, pure_eq_ok_iff, hmap, span_eq_takeWhile_dropWhile]
  exact exists_congr fun others => and_congr_right fun _ => eq_comm

/-- The name section: subsections with new indices, and the names of functions. -/
theorem nameSection_eq_ok_iff : p.nameSection numbering = .ok customs ↔ ∃ others,
      Forall₂ (Refollows numbering) p.names others ∧
        customs = nameCustoms others (p.functionNames numbering) := by
  constructor
  · intro h
    obtain ⟨subs, hsubs, h⟩ := of_bind h
    obtain ⟨others, hothers, rfl⟩ := nameSubsections_eq_ok_iff.mp hsubs
    refine ⟨others, hothers, ?_⟩
    unfold nameCustoms
    by_cases hnone : nameSections others (p.functionNames numbering) = []
    · rw [if_pos hnone] at h ⊢
      exact (pure_eq_ok_iff.mp h).symm
    · rw [if_neg hnone] at h ⊢
      exact (pure_eq_ok_iff.mp h).symm
  · rintro ⟨others, hothers, rfl⟩
    refine bind_eq_ok_iff.mpr ⟨_, nameSubsections_eq_ok_iff.mpr ⟨others, hothers, rfl⟩, ?_⟩
    unfold nameCustoms
    by_cases hnone : nameSections others (p.functionNames numbering) = []
    · rw [if_pos hnone, if_pos hnone]
      rfl
    · rw [if_neg hnone, if_neg hnone]
      rfl

theorem nameSections_eq_nil (h : nameSections others names = []) : others = [] ∧ names = [] := by
  unfold nameSections at h
  simp only [append_eq_nil_iff] at h
  obtain ⟨⟨htake, hnames⟩, hdrop⟩ := h
  refine ⟨?_, ?_⟩
  · rw [← takeWhile_append_dropWhile (p := (·.id ≤ NameSubsection.funcs)) (l := others), htake,
      hdrop]
    rfl
  · by_contra hne
    rw [if_neg hne] at hnames
    cases hnames

theorem length_lt_of_nameCustoms (h : ∀ c ∈ nameCustoms others names, c.data.length < 2 ^ 32)
    (hs : s ∈ others) : s.data.length < 2 ^ 32 := by
  have hmem : s ∈ nameSections others names := by
    have hsplit := takeWhile_append_dropWhile (p := (·.id ≤ NameSubsection.funcs)) (l := others)
    rw [← hsplit] at hs
    unfold nameSections
    rcases mem_append.mp hs with hs | hs
    · exact mem_append_left _ (mem_append_left _ hs)
    · exact mem_append_right _ hs
  have hle := Reader.length_le_of_mem Wire.nameSubsection hmem
  have hlength := h ⟨nameSectionName, (nameSections others names).flatMap Wire.nameSubsection⟩
    (by rw [nameCustoms, if_neg (ne_nil_of_mem hmem)]; exact mem_singleton_self _)
  simp only [Wire.nameSubsection, length_cons, length_append] at hle hlength
  omega

/-- The names that are written are found again. -/
theorem ofBytes_nameSections (hothers : ∀ s ∈ others, s.id ≠ NameSubsection.funcs)
    (hlength : ((nameSections others names).flatMap Wire.nameSubsection).length < 2 ^ 32) :
    NameScan.ofBytes ((nameSections others names).flatMap Wire.nameSubsection) =
      ⟨NameEntry.sorted names, others, true⟩ := by
  have hfuncs : NameScan.Extends ⟨[], others.takeWhile (·.id ≤ NameSubsection.funcs), false⟩
      ((if names = [] then [] else
        [⟨NameSubsection.funcs, Wire.nameMap names⟩] : List NameSubsection).flatMap
          Wire.nameSubsection)
      ⟨NameEntry.sorted names, others.takeWhile (·.id ≤ NameSubsection.funcs), false⟩ := by
    split
    next hnone =>
      rw [hnone, NameEntry.sorted, mergeSort_nil]
      exact .refl _
    next =>
      rw [flatMap_singleton]
      exact .funcs _ names
  have hbefore := NameScan.Extends.others ⟨[], [], false⟩
    fun s hs => hothers s ((takeWhile_sublist (·.id ≤ NameSubsection.funcs)).subset hs)
  have hafter := NameScan.Extends.others ⟨NameEntry.sorted names,
      others.takeWhile (·.id ≤ NameSubsection.funcs), false⟩
    fun s hs => hothers s ((dropWhile_sublist (·.id ≤ NameSubsection.funcs)).subset hs)
  have hall := (hbefore.trans hfuncs).trans hafter
  simp only [takeWhile_append_dropWhile] at hall
  rw [nameSections, flatMap_append, flatMap_append] at hlength ⊢
  exact hall.ofBytes hlength

/-- What was written for names is taken in: functions get theirs, and other subsections are kept. -/
theorem takeNameCustoms (hu : u.names = []) (hothers : ∀ s ∈ others, s.id ≠ NameSubsection.funcs)
    (hlength : ∀ c ∈ nameCustoms others names, c.data.length < 2 ^ 32) :
    (nameCustoms others names).foldl takeCustom u =
      { (NameEntry.sorted names).foldl assignName u with names := others } := by
  unfold nameCustoms at hlength ⊢
  split
  next hnone =>
    obtain ⟨rfl, rfl⟩ := nameSections_eq_nil hnone
    rw [NameEntry.sorted, mergeSort_nil, foldl_nil, foldl_nil, ← hu]
  next hsome =>
    rw [if_neg hsome] at hlength
    have hfound := ofBytes_nameSections hothers (hlength _ mem_cons_self)
    simp only [foldl_cons, foldl_nil, takeCustom, ↓reduceIte, hfound]

theorem takeNames (hu : u.funcs = fs.map Function.unnamed) (hnames : u.names = [])
    (hfs : fs.length ≤ 2 ^ 32) (hothers : ∀ s ∈ others, s.id ≠ NameSubsection.funcs)
    (hlength : ∀ c ∈ nameCustoms others (namesFrom 0 fs), c.data.length < 2 ^ 32) :
    (nameCustoms others (namesFrom 0 fs)).foldl takeCustom u =
      { u with funcs := fs, names := others } := by
  have hassign : (namesFrom 0 fs).foldl assignName u = { u with funcs := fs } :=
    foldl_namesFrom [] hu (by simpa using hfs)
  rw [takeNameCustoms hnames hothers hlength, sorted_namesFrom (by omega), hassign]

theorem takeCustoms_plain (h : ∀ c ∈ customs, c.name ≠ nameSectionName) :
    customs.foldl takeCustom u = { u with customs := u.customs ++ customs } := by
  induction customs generalizing u with
  | nil => simp
  | cons c customs ih =>
    have hc : u.takeCustom c = { u with customs := u.customs ++ [c] } :=
      if_neg (h c mem_cons_self)
    rw [foldl_cons, hc, ih fun c hc => h c (mem_cons_of_mem _ hc), append_assoc, singleton_append]

theorem scan_others {bound : Nat} {found : NameScan} {c : Cursor}
    (h : ∀ s ∈ found.others, s.id ≠ NameSubsection.funcs) :
    ∀ s ∈ (NameScan.scan bound found c).others, s.id ≠ NameSubsection.funcs := by
  induction bound generalizing found c with
  | zero => exact h
  | succ bound ih =>
    unfold NameScan.scan
    split
    next => exact h
    next =>
      split
      next => exact h
      next sub _ _ =>
        split
        next =>
          split
          next => exact h
          next => exact ih h
        next hid =>
          refine ih fun s hs => ?_
          rcases mem_append.mp hs with hs | hs
          · exact h s hs
          · exact mem_singleton.mp hs ▸ hid

/-- Subsections of names that are kept are not those of functions, and custom sections that are kept
are not those of names, as long as these can be read to their end. -/
structure NamesApart (p : Program) : Prop where
  names : ∀ s ∈ p.names, s.id ≠ NameSubsection.funcs
  customs : ∀ c ∈ p.customs, c.name ≠ nameSectionName

theorem foldl_assignName (u : Program) (entries : List NameEntry) :
    ∃ funcs, entries.foldl assignName u = { u with funcs } := by
  induction entries generalizing u with
  | nil => exact ⟨u.funcs, rfl⟩
  | cons e entries ih => exact ih (u.assignName e)

theorem takeCustom_namesApart {c : Wire.Custom} (hu : u.NamesApart)
    (hc : c.name = nameSectionName → (NameScan.ofBytes c.data).complete = true) :
    (u.takeCustom c).NamesApart := by
  unfold takeCustom
  split
  next hname =>
    obtain ⟨funcs, hfuncs⟩ := foldl_assignName u (NameScan.ofBytes c.data).funcs
    dsimp only
    rw [hfuncs, if_pos (hc hname)]
    exact ⟨scan_others nofun, hu.customs⟩
  next hname =>
    refine ⟨hu.names, fun d hd => ?_⟩
    rcases mem_append.mp hd with hd | hd
    · exact hu.customs d hd
    · exact mem_singleton.mp hd ▸ hname

theorem takeCustoms_namesApart (hu : u.NamesApart)
    (h : ∀ c ∈ customs, c.name = nameSectionName → (NameScan.ofBytes c.data).complete = true) :
    (customs.foldl takeCustom u).NamesApart := by
  induction customs generalizing u with
  | nil => exact hu
  | cons c customs ih =>
    exact ih (takeCustom_namesApart hu (h c mem_cons_self)) fun d hd => h d (mem_cons_of_mem _ hd)

theorem map_follow_range {α : Type} (n : Nat) (index : α → UInt32) (put : α → UInt32 → α)
    (hput : ∀ a, put a (index a) = a) (as : List α) :
    as.map (fun a => put a (Numbering.follow (List.range n) (index a))) = as := by
  refine (map_congr_left fun a _ => ?_).trans (map_id as)
  rw [Numbering.follow_range, hput]
  rfl

theorem followNames_range (nf nt ng : Nat) (s : NameSubsection) :
    followNames ⟨List.range nf, List.range nt, List.range ng⟩ s =
      if s.id = NameSubsection.locals || s.id = NameSubsection.labels then
        match Reader.indirectNameMap.run s.data with
        | .ok entries => .ok (Wire.indirectNameMap entries)
        | .error cause => .error (.read (.inSubsection s.id cause))
      else if s.id = NameSubsection.tables || s.id = NameSubsection.tags then
        match Reader.nameMap.run s.data with
        | .ok entries => .ok (Wire.nameMap entries)
        | .error cause => .error (.read (.inSubsection s.id cause))
      else .ok s.data := by
  have hindirect := map_follow_range nf IndirectNames.index (fun e index => { e with index })
    fun _ => rfl
  have hentries := fun n => map_follow_range n NameEntry.index (fun e index => { e with index })
    fun _ => rfl
  unfold followNames
  split
  next =>
    simp only [hindirect]
    cases Reader.indirectNameMap.run s.data <;> rfl
  next =>
    split
    next =>
      by_cases htags : s.id = NameSubsection.tags
      · simp only [htags, ↓reduceIte, hentries]
        cases Reader.nameMap.run s.data <;> rfl
      · simp only [if_neg htags, hentries]
        cases Reader.nameMap.run s.data <;> rfl
    next => rfl

/-- Once renumbered, names are written as they stand. -/
theorem Refollows.again {s' : NameSubsection} (h : Refollows numbering s s')
    (hlength : s'.data.length < 2 ^ 32) (nf nt ng : Nat) :
    Refollows ⟨List.range nf, List.range nt, List.range ng⟩ s' s' := by
  obtain ⟨hid, hdata⟩ := h
  refine ⟨rfl, ?_⟩
  rw [followNames_range, hid]
  unfold followNames at hdata
  split at hdata
  next hkind =>
    rw [if_pos hkind]
    cases hentries : Reader.indirectNameMap.run s.data with
    | ok entries =>
      rw [hentries] at hdata
      rw [← Except.ok.inj hdata] at hlength ⊢
      rw [Wire.indirectNameMap_run hlength]
      exact congrArg Except.ok (Wire.indirectNameMap_sorted _)
    | error =>
      rw [hentries] at hdata
      cases hdata
  next hkind =>
    rw [if_neg hkind]
    split at hdata
    next hkind' =>
      rw [if_pos hkind']
      cases hentries : Reader.nameMap.run s.data with
      | ok entries =>
        rw [hentries] at hdata
        rw [← Except.ok.inj hdata] at hlength ⊢
        rw [Wire.nameMap_run hlength]
        exact congrArg Except.ok (Wire.nameMap_sorted _)
      | error =>
        rw [hentries] at hdata
        cases hdata
    next hkind' => rw [if_neg hkind']

end Program

end HostCatch
