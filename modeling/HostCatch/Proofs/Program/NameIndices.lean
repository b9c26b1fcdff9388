import HostCatch.Proofs.Program.Reopening
import HostCatch.Proofs.Wire.Loading

namespace HostCatch

open List

/-- An index after entities were given their places in an order: that of the same entity. An index
of none is left alone. -/
structure Numbering.Moves (order : List Nat) (old new : UInt32) : Prop where
  entity : old.toNat < order.length → new.toNat = order.idxOf old.toNat
  none : order.length ≤ old.toNat → new = old

theorem Numbering.toNat_indexIn {order : List Nat} {n : Nat} (h : order.Perm (List.range n))
    (hn : n ≤ 2 ^ 32) {id : Nat} (hid : id < n) : (indexIn order id).toNat = order.idxOf id := by
  have hindex := idxOf_lt_length_of_mem (h.mem_iff.mpr (mem_range.mpr hid))
  rw [h.length_eq, length_range] at hindex
  exact Reader.toNat_ofNat_size (Nat.lt_of_lt_of_le hindex hn)

theorem Numbering.moves_follow {order : List Nat} {n : Nat} (h : order.Perm (List.range n))
    (hn : n ≤ 2 ^ 32) (index : UInt32) : Moves order index (follow order index) := by
  have hlength : order.length = n := by
    rw [h.length_eq, length_range]
  unfold follow
  refine ⟨fun hlt => ?_, fun hle => if_neg (Nat.not_lt.mpr hle)⟩
  rw [if_pos hlt, toNat_indexIn h hn (hlength ▸ hlt)]

/-- The second list holds the entries of the first, each as `R` says, in the order of their
indices. -/
structure Rearranges {α : Type} (R : α → α → Prop) (index : α → UInt32) (old new : List α) :
    Prop where
  entries : ∃ moved, List.Forall₂ R old moved ∧ moved.Perm new
  ordered : new.Pairwise fun a b => index a ≤ index b

/-- The name belongs to the same entity at its new index. -/
structure NameEntry.Moved (order : List Nat) (old new : NameEntry) : Prop where
  index : Numbering.Moves order old.index new.index
  name : new.name = old.name

/-- The names belong to the same entity at its new index. -/
structure IndirectNames.Moved (order : List Nat) (old new : IndirectNames) : Prop where
  index : Numbering.Moves order old.index new.index
  names : old.names.Perm new.names

/-- A subsection of debug names after entities were given their indices: names of local variables
and labels follow their functions, and names of tables and tags follow these. -/
structure NameSubsection.Moved (l : Numbering) (old new : NameSubsection) : Prop where
  id : new.id = old.id
  nested : old.id = locals ∨ old.id = labels → ∃ before after,
    Reader.indirectNameMap.run old.data = .ok before ∧
      Reader.indirectNameMap.run new.data = .ok after ∧
      Rearranges (IndirectNames.Moved l.funcs) IndirectNames.index before after
  listed : ∀ order, old.id = tables ∧ order = l.tables ∨ old.id = tags ∧ order = l.tags →
    ∃ before after, Reader.nameMap.run old.data = .ok before ∧
      Reader.nameMap.run new.data = .ok after ∧
      Rearranges (NameEntry.Moved order) NameEntry.index before after
  others : old.id ∉ [locals, labels, tables, tags] → new.data = old.data

namespace Program

section Following

variable {order : List Nat} {n : Nat} {s : NameSubsection}

theorem rearranges_sorted (horder : order.Perm (List.range n)) (hn : n ≤ 2 ^ 32)
    (entries : List NameEntry) : Rearranges (NameEntry.Moved order) NameEntry.index entries
      (NameEntry.sorted (entries.map fun e => { e with index := Numbering.follow order e.index })) where
  entries := by
    refine ⟨_, ?_, (mergeSort_perm _ _).symm⟩
    rw [forall₂_map_right_iff, forall₂_same]
    exact fun e _ => ⟨Numbering.moves_follow horder hn e.index, rfl⟩
  ordered := (pairwise_index NameEntry.index _).imp of_decide_eq_true

theorem rearranges_nested (horder : order.Perm (List.range n)) (hn : n ≤ 2 ^ 32)
    (entries : List IndirectNames) :
    Rearranges (IndirectNames.Moved order) IndirectNames.index entries (IndirectNames.sorted
        (entries.map fun e => { e with index := Numbering.follow order e.index })) where
  entries := by
    refine ⟨_, ?_, ((mergeSort_perm _ _).map _).symm⟩
    rw [forall₂_map_right_iff, forall₂_map_right_iff, forall₂_same]
    exact fun e _ => ⟨Numbering.moves_follow horder hn e.index, (mergeSort_perm _ _).symm⟩
  ordered := pairwise_map.mpr ((pairwise_index IndirectNames.index _).imp of_decide_eq_true)

theorem followNames_nested {l : Numbering} {data : Bytes}
    (hkind : s.id = NameSubsection.locals ∨ s.id = NameSubsection.labels)
    (h : followNames l s = .ok data) : ∃ entries, Reader.indirectNameMap.run s.data = .ok entries ∧
      data = Wire.indirectNameMap
        (entries.map fun e => { e with index := Numbering.follow l.funcs e.index }) := by
  unfold followNames at h
  rw [if_pos (by simpa using hkind)] at h
  cases hentries : Reader.indirectNameMap.run s.data with
  | error cause =>
    rw [hentries] at h
    cases h
  | ok entries =>
    rw [hentries] at h
    exact ⟨entries, rfl, (Except.ok.inj h).symm⟩

theorem followNames_listed {l : Numbering} {data : Bytes}
    (hkind : s.id = NameSubsection.tables ∧ order = l.tables ∨
      s.id = NameSubsection.tags ∧ order = l.tags) (h : followNames l s = .ok data) :
    ∃ entries, Reader.nameMap.run s.data = .ok entries ∧ data = Wire.nameMap
        (entries.map fun e => { e with index := Numbering.follow order e.index }) := by
  have hids : (s.id = NameSubsection.locals || s.id = NameSubsection.labels) = false ∧
      (s.id = NameSubsection.tables || s.id = NameSubsection.tags) = true ∧
      (if s.id = NameSubsection.tags then l.tags else l.tables) = order := by
    rcases hkind with ⟨hid, rfl⟩ | ⟨hid, rfl⟩
    · rw [hid]
      exact ⟨by decide, by decide, if_neg (by decide)⟩
    · rw [hid]
      exact ⟨by decide, by decide, if_pos rfl⟩
  unfold followNames at h
  simp only [hids, Bool.false_eq_true, ↓reduceIte] at h
  cases hentries : Reader.nameMap.run s.data with
  | error cause =>
    rw [hentries] at h
    cases h
  | ok entries =>
    rw [hentries] at h
    exact ⟨entries, rfl, (Except.ok.inj h).symm⟩

/-- What is written for a subsection can be read with its entities at their indices. -/
theorem Refollows.moved {p : Program} (hp : p.Paired) (hcount : ∀ space, p.count space ≤ 2 ^ 32)
    {s' : NameSubsection} (h : Refollows p.numbering s s') (hlength : s'.data.length < 2 ^ 32) :
    s.Moved p.numbering s' := by
  obtain ⟨hid, hdata⟩ := h
  refine ⟨hid, fun hkind => ?_, fun order hkind => ?_, fun hkind => ?_⟩
  · obtain ⟨entries, hentries, hnew⟩ := followNames_nested hkind hdata
    rw [hnew] at hlength ⊢
    exact ⟨entries, _, hentries, Wire.indirectNameMap_run hlength,
      rearranges_nested (hp.order_perm .func) (hcount .func) entries⟩
  · obtain ⟨entries, hentries, hnew⟩ := followNames_listed hkind hdata
    rw [hnew] at hlength ⊢
    refine ⟨entries, _, hentries, Wire.nameMap_run hlength, ?_⟩
    rcases hkind with ⟨-, rfl⟩ | ⟨-, rfl⟩
    · exact rearranges_sorted (hp.order_perm .table) (hcount .table) entries
    · exact rearranges_sorted (hp.order_perm .tag) (hcount .tag) entries
  · simp only [mem_cons, not_mem_nil, or_false, not_or] at hkind
    obtain ⟨hlocals, hlabels, htables, htags⟩ := hkind
    simp only [followNames, hlocals, hlabels, htables, htags, decide_false, Bool.or_self,
      Bool.false_eq_true, ↓reduceIte, Except.ok.injEq] at hdata
    exact hdata.symm

end Following

section Assigning

variable {entries : List NameEntry}

/-- The name of the function at an index. -/
def nameAt? (p : Program) (index : Nat) : Option Bytes :=
  p.funcs[index]?.map Function.name

theorem nameAt?_assignName (p : Program) (e : NameEntry) (index : Nat) :
    (p.assignName e).nameAt? index =
      if e.index.toNat = index then (p.nameAt? index).map fun _ => e.name else p.nameAt? index := by
  simp only [nameAt?, assignName, setName, getElem?_modify]
  split <;> cases p.funcs[index]? <;> rfl

theorem nameAt?_of_forall_ne {index : Nat} (h : ∀ e ∈ entries, e.index.toNat ≠ index) (u : Program) :
    (entries.foldl assignName u).nameAt? index = u.nameAt? index := by
  induction entries generalizing u with
  | nil => rfl
  | cons e entries ih =>
    obtain ⟨he, hentries⟩ := forall_mem_cons.mp h
    rw [foldl_cons, ih hentries, nameAt?_assignName, if_neg he]

theorem nameAt?_of_mem (h : entries.Pairwise fun a b => a.index ≠ b.index) {e : NameEntry}
    (he : e ∈ entries) (u : Program) : (entries.foldl assignName u).nameAt? e.index.toNat =
      (u.nameAt? e.index.toNat).map fun _ => e.name := by
  induction entries generalizing u with
  | nil => cases he
  | cons first entries ih =>
    obtain ⟨hfirst, hentries⟩ := pairwise_cons.mp h
    rw [foldl_cons]
    rcases mem_cons.mp he with rfl | he
    · rw [nameAt?_of_forall_ne fun d hd heq => hfirst d hd (UInt32.toNat_inj.mp heq).symm,
        nameAt?_assignName, if_pos rfl]
    · rw [ih hentries he, nameAt?_assignName,
        if_neg fun heq => hfirst e he (UInt32.toNat_inj.mp heq)]

end Assigning

section Names

variable {p : Program}

theorem mem_functionNames_iff {l : Numbering} {e : NameEntry} :
    e ∈ p.functionNames l ↔ ∃ id f, p.funcs[id]? = some f ∧ f.name ≠ [] ∧
      e = ⟨Numbering.indexIn l.funcs id, f.name⟩ := by
  simp only [functionNames, mem_map, mem_filter, mem_zipIdx_iff_getElem?, Prod.exists,
    decide_eq_true_eq]
  constructor
  · rintro ⟨f, id, ⟨hf, hname⟩, rfl⟩
    exact ⟨id, f, hf, hname, rfl⟩
  · rintro ⟨id, f, hf, hname, rfl⟩
    exact ⟨f, id, ⟨hf, hname⟩, rfl⟩

/-- No index is named twice. -/
theorem functionNames_distinct (hp : p.Paired) (hcount : p.funcs.length ≤ 2 ^ 32) :
    (p.functionNames p.numbering).Pairwise fun a b => a.index ≠ b.index := by
  have horder : p.numbering.funcs.Perm (List.range p.funcs.length) := hp.order_perm .func
  have hids : p.funcs.zipIdx.Pairwise fun a b => a.2 ≠ b.2 := by
    rw [← pairwise_map, zipIdx_map_snd]
    exact nodup_range'
  have hlt : ∀ {a : Function × Nat}, a ∈ p.funcs.zipIdx.filter (·.1.name ≠ []) →
      a.2 < p.funcs.length := fun ha =>
    (List.getElem?_eq_some_iff.mp (List.mem_zipIdx_iff_getElem?.mp (List.mem_filter.mp ha).1)).1
  refine List.pairwise_map.mpr ((hids.sublist List.filter_sublist).imp_of_mem ?_)
  intro a b ha hb hne heq
  have hsame : p.numbering.funcs.idxOf a.2 = p.numbering.funcs.idxOf b.2 := by
    rw [← Numbering.toNat_indexIn horder hcount (hlt ha),
      ← Numbering.toNat_indexIn horder hcount (hlt hb)]
    exact congrArg UInt32.toNat heq
  exact hne ((idxOf_inj (horder.mem_iff.mpr (mem_range.mpr (hlt ha)))).mp hsame)

/-- Names of functions are written in the order of their indices, each index once. -/
theorem sorted_functionNames_increasing (hp : p.Paired) (hcount : p.funcs.length ≤ 2 ^ 32) :
    (NameEntry.sorted (p.functionNames p.numbering)).Pairwise fun a b => a.index < b.index := by
  have hle := (pairwise_index NameEntry.index (p.functionNames p.numbering)).imp of_decide_eq_true
  have hsorted := mergeSort_perm (p.functionNames p.numbering) fun a b => a.index ≤ b.index
  have hne := hsorted.symm.pairwise (functionNames_distinct hp hcount) fun h heq => h heq.symm
  exact (hle.and hne).imp fun h => UInt32.lt_of_le_of_ne h.1 h.2

theorem ofBytes_of_mem_nameCustoms {others : List NameSubsection}
    (hothers : ∀ s ∈ others, s.id ≠ NameSubsection.funcs) {names : List NameEntry} {c : Wire.Custom}
    (hc : c ∈ nameCustoms others names) (hlength : c.data.length < 2 ^ 32) :
    NameScan.ofBytes c.data = ⟨NameEntry.sorted names, others, true⟩ := by
  unfold nameCustoms at hc
  split at hc
  next => cases hc
  next =>
    obtain rfl := mem_singleton.mp hc
    exact ofBytes_nameSections hothers hlength

end Names

section Attached

variable {p q : Program} {out n : Wire.Module} {bodies : List (UInt32 × Wire.FuncBody)}
  {extra : List ValType} {names : List Wire.Custom} {bytes : Bytes}
  {first : Program} {tables : List Table} {exports : List Export}

/-- What a program was written and read as has the names of the program: functions at their indices,
listed once each in this order, and the other subsections with their entities at their indices. -/
structure KeepsNames (p : Program) (bytes : Bytes) (q : Program) : Prop where
  length : q.funcs.length = p.funcs.length
  funcs : ∀ id < p.funcs.length, q.nameAt? (p.numbering.funcs.idxOf id) = p.nameAt? id
  listed : ∃ m, Wire.Module.decode bytes = .ok m ∧ ∀ c ∈ m.customs, c.name = nameSectionName →
    (NameScan.ofBytes c.data).complete = true ∧
      (NameScan.ofBytes c.data).funcs.Pairwise fun a b => a.index < b.index
  others : List.Forall₂ (NameSubsection.Moved p.numbering) p.names q.names

theorem ReadFrom.assembled_length {s : Program} (hread : ReadFrom n q first s tables exports)
    (hlowered : p.LoweredTo out) (himports : n.imports = out.imports.map Wire.Import.stored)
    (hfuncs : n.funcs = out.funcs) (hbodies : out.funcs.length = out.code.length) :
    (first.assembled n tables exports).funcs.length = p.funcs.length := by
  obtain ⟨types, -, htakes⟩ := hread.assembles.imports
  have hnone : Mirrors { types } [] [] [] := ⟨.nil, .nil, rfl⟩
  have hfirst := (htakes.takes_mirrors hnone).funcs.length_eq
  have hstored : Wire.Import.func? ∘ Wire.Import.stored = Wire.Import.func? :=
    funext Wire.Import.func?_stored
  rw [himports, nil_append, filterMap_map, hstored] at hfirst
  obtain ⟨_, -, hlength, -⟩ := hlowered.funcs
  simp only [Wire.Module.funcSpace, length_append, length_zipWith, ← hbodies, Nat.min_self]
    at hlength
  simp only [assembled, length_append, length_map, hfuncs, hfirst, hlength]

/-- A function that was read without a name has the name that was listed for it, if any was. -/
theorem nameAt?_listed (hp : p.Paired) (hcount : p.funcs.length ≤ 2 ^ 32) {u : Program}
    (hlength : u.funcs.length = p.funcs.length) (hbare : ∀ f ∈ u.funcs, f.name = []) {id : FuncId}
    (hid : id < p.funcs.length) :
    ((NameEntry.sorted (p.functionNames p.numbering)).foldl assignName u).nameAt?
      (p.numbering.funcs.idxOf id) = p.nameAt? id := by
  have horder : p.numbering.funcs.Perm (List.range p.funcs.length) := hp.order_perm .func
  have hmem : ∀ {k}, k < p.funcs.length → k ∈ p.numbering.funcs :=
    fun hk => horder.mem_iff.mpr (mem_range.mpr hk)
  have hsorted := mergeSort_perm (p.functionNames p.numbering) fun a b => a.index ≤ b.index
  have hu : u.nameAt? (p.numbering.funcs.idxOf id) = some [] := by
    have hlt : p.numbering.funcs.idxOf id < u.funcs.length := by
      rw [hlength, ← hp.funcs_length]
      exact idxOf_lt_length_of_mem (hmem hid)
    rw [nameAt?, getElem?_eq_getElem hlt, Option.map_some, hbare _ (getElem_mem hlt)]
  have hname : p.nameAt? id = some p.funcs[id].name := by
    rw [nameAt?, getElem?_eq_getElem hid, Option.map_some]
  -- Indices are listed for the functions that have them only: that of an unnamed one is not listed.
  by_cases hnone : p.funcs[id].name = []
  · rw [nameAt?_of_forall_ne, hu, hname, hnone]
    intro e he heq
    obtain ⟨k, f, hf, hsome, rfl⟩ := mem_functionNames_iff.mp (hsorted.mem_iff.mp he)
    have hk := lt_of_getElem? hf
    rw [Numbering.toNat_indexIn horder hcount hk] at heq
    obtain rfl := (idxOf_inj (hmem hk)).mp heq
    exact hsome (by rw [← hnone, (List.getElem?_eq_some_iff.mp hf).2])
  · have hlisted : ⟨Numbering.indexIn p.numbering.funcs id, p.funcs[id].name⟩ ∈
        NameEntry.sorted (p.functionNames p.numbering) :=
      hsorted.mem_iff.mpr (mem_functionNames_iff.mpr
        ⟨id, p.funcs[id], getElem?_eq_getElem hid, hnone, rfl⟩)
    have hassigned := nameAt?_of_mem ((sorted_functionNames_increasing hp hcount).imp UInt32.ne_of_lt)
      hlisted u
    rw [Numbering.toNat_indexIn horder hcount hid, hu] at hassigned
    rw [hassigned, hname]
    rfl

theorem Emits.names_length (he : p.Emits out bodies extra names) (hbytes : out.encode = .ok bytes)
    (hlength : bytes.length < 2 ^ 32) : ∀ c ∈ names, c.data.length < 2 ^ 32 := by
  intro c hc
  have hwithin := (Wire.Module.within_encode he.typeDefs hbytes).customs c
  rw [he.customs] at hwithin
  exact Nat.lt_trans (hwithin (mem_append_left _ hc)) hlength

/-- Custom sections that were carried along come after the names and are none of them. -/
theorem ReadFrom.names_taken {s : Program} (hread : ReadFrom n q first s tables exports)
    {others : List NameSubsection} {listed : List NameEntry} {carried : List Wire.Custom}
    (hcustoms : n.customs = nameCustoms others listed ++ carried)
    (hothers : ∀ s ∈ others, s.id ≠ NameSubsection.funcs)
    (hlength : ∀ c ∈ nameCustoms others listed, c.data.length < 2 ^ 32)
    (hcarried : ∀ c ∈ carried, c.name ≠ nameSectionName) :
    s.names = others ∧ s.funcs =
      ((NameEntry.sorted listed).foldl assignName (first.assembled n tables exports)).funcs := by
  have hnone : (first.assembled n tables exports).names = [] := by
    obtain ⟨types, -, htakes⟩ := hread.assembles.imports
    rw [assembled, htakes.takes_rest]
  rw [hread.customs, hcustoms, foldl_append, takeNameCustoms hnone hothers hlength,
    takeCustoms_plain hcarried]
  exact ⟨rfl, rfl⟩

/-- Names stay with what they name, through writing and reading. -/
theorem Emits.keepsNames (he : p.Emits out bodies extra names) (hp : p.Paired)
    (hcarried : p.CarriesOthers) (himports : ∀ e ∈ out.imports, e.desc.Sketched)
    (hapart : p.NamesApart) (hbytes : out.encode = .ok bytes) (hlength : bytes.length < 2 ^ 32)
    (hq : parse bytes = .ok q) : p.KeepsNames bytes q := by
  have hcount := he.count_le hp hcarried hbytes hlength
  obtain ⟨others, hothers, rfl⟩ := nameSection_eq_ok_iff.mp he.naming
  obtain ⟨n, hn, hof⟩ := parse_eq_ok_iff.mp hq
  obtain ⟨hnimports, hnfuncs, hncustoms⟩ := Wire.Module.decode_loaded himports hbytes hlength hn
  obtain ⟨first, s, tables, exports, hread⟩ := ofModule_eq_ok hof
  have hassembled := hread.assembled_length (he.loweredTo hp hcarried) hnimports hnfuncs
    he.bodies_length
  have hids : ∀ s ∈ others, s.id ≠ NameSubsection.funcs := by
    intro s hs
    obtain ⟨old, hold, hid, -⟩ := forall₂_mem_right hothers hs
    exact hid ▸ hapart.names old hold
  have hdata : ∀ c ∈ nameCustoms others (p.functionNames p.numbering), c.data.length < 2 ^ 32 :=
    he.names_length hbytes hlength
  have hs := hread.names_taken (hncustoms.trans he.customs) hids hdata hapart.customs
  refine ⟨?_, fun id hid => ?_, ⟨n, hn, fun c hc hname => ?_⟩, ?_⟩
  · have hrenamed := hread.bodies.toBodied.length.trans hread.renamed.length
    exact hrenamed.trans hassembled
  · have hsame : q.nameAt? (p.numbering.funcs.idxOf id) = s.nameAt? (p.numbering.funcs.idxOf id) := by
      rw [nameAt?, nameAt?, ← getElem?_map, ← getElem?_map, hread.names_eq]
    rw [hsame, nameAt?, hs.2]
    exact nameAt?_listed hp (hcount .func) hassembled
      (fun f hf => (hread.assembled_bare f hf).1) hid
  · rw [hncustoms, he.customs] at hc
    rcases mem_append.mp hc with hc | hc
    · rw [ofBytes_of_mem_nameCustoms hids hc (hdata c hc)]
      exact ⟨rfl, sorted_functionNames_increasing hp (hcount .func)⟩
    · exact absurd hname (hapart.customs c hc)
  · have hnames : q.names = others := by
      rw [hread.bodies.rest, ← hs.1]
    rw [hnames]
    have hlong : ∀ s ∈ others, s.data.length < 2 ^ 32 := fun s => length_lt_of_nameCustoms hdata
    exact ((forall₂_and_left _ _).mpr ⟨hlong, hothers.flip⟩).flip.imp
      fun _ _ h => Refollows.moved hp hcount h.2 h.1

end Attached

/-- The entities of a program are in their places: imports and what they provide name each other, and
what imports carry beside that, and the initial values of imported tables, are as they were read. -/
structure Arranged (p : Program) : Prop where
  linked : p.Linked
  others : ∀ i ∈ p.imports, ∀ desc, i.target = .carried desc → desc.isCarried = true ∧ desc.Proper
  inits : ∀ t ∈ p.tables, t.entry.isSome → t.init ≠ [] →
    Reader.Spells Reader.constExpr t.init t.init

theorem Arranged.importToWire_sketched {p : Program} (h : p.Arranged) {i : Import}
    (hi : i ∈ p.imports) {e : Wire.Import} (he : p.importToWire i = .ok e) : e.desc.Sketched := by
  refine Program.importToWire_sketched he (fun id t htarget ht => ?_)
    fun desc htarget => (h.others i hi desc htarget).2
  obtain ⟨entry, hentry⟩ := getElem?_of_mem hi
  obtain ⟨imported, himported, hentries⟩ := h.linked.toTable entry i id hentry htarget
  cases ht.symm.trans himported
  exact h.inits t (mem_of_getElem? ht) (by rw [hentries]; rfl)

/-- Programs that were read or made from nothing are arranged, whatever was added to them. -/
theorem Reaches.arranged {start p : Program} {issued : List Binding} (h : Reaches start issued p)
    (hstart : start = {} ∨ ∃ data, parse data = .ok start) : p.Arranged := by
  have hbegins : start.IsStart ∧ start.Storable := by
    rcases hstart with rfl | ⟨data, hdata⟩
    · exact ⟨.inl rfl, restorable_empty.toStorable⟩
    · obtain ⟨m, -, hm⟩ := parse_eq_ok_iff.mp hdata
      exact ⟨.inr ⟨m, hm⟩, (restorable_of_parse hdata).toStorable⟩
  have hstorable := h.storable hbegins.2
  have hcarried := h.carriesOthers hbegins.1.carriesOthers
  exact ⟨(h.paired hbegins.1.paired).linked,
    fun i hi desc hdesc => ⟨hcarried i hi desc hdesc, hstorable.others i hi desc hdesc⟩,
    fun t ht _ => hstorable.inits t ht⟩

/-- If a program is written and what was written can be read, all debug names are with the entities
that they were with, at the indices that these have now. -/
theorem emit_keepsNames {p q : Program} {bytes : Bytes} (h : p.Arranged) (hapart : p.NamesApart)
    (hbytes : p.emit = .ok bytes) (hlength : bytes.length < 2 ^ 32) (hq : parse bytes = .ok q) :
    p.KeepsNames bytes q := by
  obtain ⟨out, hout, -, hencode⟩ := emit_eq_ok_iff.mp hbytes
  obtain ⟨bodies, extra, names, he⟩ := toModule_eq_ok_iff.mp hout
  refine he.keepsNames h.linked.paired (fun i hi desc hdesc => (h.others i hi desc hdesc).1) ?_ hapart
    hencode hlength hq
  intro e hmem
  obtain ⟨i, hi, hwritten⟩ := forall₂_mem_right (mapM_eq_ok_iff.mp he.imports) hmem
  exact h.importToWire_sketched hi hwritten

/-- The program with names for what it defines: its function, a local variable of this, its table and
its tag. -/
def labelled : Program :=
  { interleaved.setName 0 [0x66] with
    names := [⟨NameSubsection.locals, Wire.indirectNameMap [⟨0, [⟨0, [0x6c]⟩]⟩]⟩,
      ⟨NameSubsection.tables, Wire.nameMap [⟨0, [0x74]⟩]⟩,
      ⟨NameSubsection.tags, Wire.nameMap [⟨0, [0x67]⟩]⟩] }

theorem labelled_arranged : labelled.Arranged := by
  obtain ⟨issued, hreached⟩ := interleaved_reached
  have h := hreached.arranged (.inl rfl)
  have hinterleaved := h.linked.paired
  have hpaired : labelled.Paired := ⟨hinterleaved.funcs, hinterleaved.tables, hinterleaved.tags⟩
  exact ⟨hpaired.linked, h.others, h.inits⟩

/-- All of them have moved behind what is imported. -/
theorem labelled_keepsNames : ∃ bytes q, labelled.emit = .ok bytes ∧ parse bytes = .ok q ∧
    q.funcs.map Function.name = [[], [0x66]] ∧
    q.names = [⟨NameSubsection.locals, Wire.indirectNameMap [⟨1, [⟨0, [0x6c]⟩]⟩]⟩,
      ⟨NameSubsection.tables, Wire.nameMap [⟨1, [0x74]⟩]⟩,
      ⟨NameSubsection.tags, Wire.nameMap [⟨1, [0x67]⟩]⟩] ∧ labelled.KeepsNames bytes q := by
  have hrun : (labelled.emit.toOption.any fun bytes => bytes.length < 2 ^ 32 &&
      (parse bytes).toOption.any fun q => q.funcs.map Function.name = [[], [0x66]] &&
        decide (q.names = [⟨NameSubsection.locals, Wire.indirectNameMap [⟨1, [⟨0, [0x6c]⟩]⟩]⟩,
          ⟨NameSubsection.tables, Wire.nameMap [⟨1, [0x74]⟩]⟩,
          ⟨NameSubsection.tags, Wire.nameMap [⟨1, [0x67]⟩]⟩])) = true := by
    decide +kernel
  obtain ⟨bytes, hbytes, hfacts⟩ := any_toOption_iff.mp hrun
  obtain ⟨hlength, hread⟩ := Bool.and_eq_true_iff.mp hfacts
  obtain ⟨q, hq, hnames⟩ := any_toOption_iff.mp hread
  obtain ⟨hfuncs, hothers⟩ := Bool.and_eq_true_iff.mp hnames
  have hapart : labelled.NamesApart := by
    refine ⟨?_, fun c hc => absurd hc not_mem_nil⟩
    decide
  exact ⟨bytes, q, hbytes, hq, of_decide_eq_true hfuncs, of_decide_eq_true hothers,
    emit_keepsNames labelled_arranged hapart hbytes (of_decide_eq_true hlength) hq⟩

end Program

end HostCatch
