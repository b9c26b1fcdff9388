import HostCatch.Proofs.Program.Reassembling
import HostCatch.Proofs.Program.Trees
import HostCatch.Proofs.Program.WellFormed

namespace HostCatch

open List

/-- Entities and imports of one kind name each other: `entries` are the imports that provide the
entities. -/
def Links (entries : List (Option ImportId)) (pick : Import → Option Nat) (imports : List Import) :
    Prop :=
  ∀ id entry : Nat, entries[id]? = some (some entry) ↔ imports[entry]?.bind pick = some id

namespace Links

variable {entries : List (Option ImportId)} {pick : Import → Option Nat} {imports : List Import}

theorem nil (pick : Import → Option Nat) : Links [] pick [] := by
  intro id entry
  simp

theorem append (h : Links entries pick imports) {more : List (Option ImportId)}
    (hmore : ∀ entry ∈ more, entry = none) : Links (entries ++ more) pick imports := by
  intro id entry
  rw [← h id entry, getElem?_append]
  split
  next => rfl
  next hge =>
    rw [getElem?_eq_none (Nat.le_of_not_lt hge)]
    constructor
    · intro hentry
      cases hmore _ (mem_of_getElem? hentry)
    · nofun

theorem skip (h : Links entries pick imports) {i : Import} (hi : pick i = none) :
    Links entries pick (imports ++ [i]) := by
  intro id entry
  rw [h id entry, Option.bind_eq_some_iff, Option.bind_eq_some_iff]
  simp only [getElem?_concat_eq_some_iff]
  constructor
  · rintro ⟨j, hj, hpick⟩
    exact ⟨j, .inl hj, hpick⟩
  · rintro ⟨j, hj | ⟨-, rfl⟩, hpick⟩
    · exact ⟨j, hj, hpick⟩
    · rw [hi] at hpick
      cases hpick

theorem concat (h : Links entries pick imports) {i : Import} (hi : pick i = some entries.length) :
    Links (entries ++ [some imports.length]) pick (imports ++ [i]) := by
  intro id entry
  have hlink := h id entry
  rw [Option.bind_eq_some_iff] at hlink
  rw [getElem?_concat_eq_some_iff, hlink, Option.bind_eq_some_iff]
  simp only [getElem?_concat_eq_some_iff]
  constructor
  · rintro (⟨j, hj, hpick⟩ | ⟨rfl, heq⟩)
    · exact ⟨j, .inl hj, hpick⟩
    · cases heq
      exact ⟨i, .inr ⟨rfl, rfl⟩, hi⟩
  · rintro ⟨j, hj | ⟨rfl, rfl⟩, hpick⟩
    · exact .inl ⟨j, hj, hpick⟩
    · rw [hi] at hpick
      cases hpick
      exact .inr ⟨rfl, rfl⟩

variable {α : Type} {g : α → Option ImportId} {as : List α}

theorem entry (h : Links (as.map g) pick imports) {id entry : Nat} {a : α} (ha : as[id]? = some a)
    (hentry : g a = some entry) : ∃ i, imports[entry]? = some i ∧ pick i = some id := by
  refine Option.bind_eq_some_iff.mp ((h id entry).mp ?_)
  rw [getElem?_map, ha, Option.map_some, hentry]

theorem entity (h : Links (as.map g) pick imports) {id entry : Nat} {i : Import}
    (hi : imports[entry]? = some i) (hid : pick i = some id) :
    ∃ a, as[id]? = some a ∧ g a = some entry := by
  have hmap := (h id entry).mpr (Option.bind_eq_some_iff.mpr ⟨i, hi, hid⟩)
  rwa [getElem?_map, Option.map_eq_some_iff] at hmap

theorem of_entry_entity (hentry : ∀ {id entry a}, as[id]? = some a → g a = some entry →
      ∃ i, imports[entry]? = some i ∧ pick i = some id)
    (hentity : ∀ {id entry i}, imports[entry]? = some i → pick i = some id →
      ∃ a, as[id]? = some a ∧ g a = some entry) : Links (as.map g) pick imports := by
  intro id entry
  rw [getElem?_map, Option.map_eq_some_iff, Option.bind_eq_some_iff]
  exact ⟨fun ⟨a, ha, hg⟩ => hentry ha hg, fun ⟨i, hi, hid⟩ => hentity hi hid⟩

end Links

variable {i : Import}

theorem Import.func?_eq_some_iff {id : FuncId} : i.func? = some id ↔ i.target = .func id := by
  unfold Import.func?
  split <;> simp_all

theorem Import.table?_eq_some_iff {id : TableId} : i.table? = some id ↔ i.target = .table id := by
  unfold Import.table?
  split <;> simp_all

theorem Import.tag?_eq_some_iff {id : TagId} : i.tag? = some id ↔ i.target = .tag id := by
  unfold Import.tag?
  split <;> simp_all

theorem Function.import?_eq_some_iff {f : Function} {entry : ImportId} :
    f.import? = some entry ↔ f.kind = .imported entry := by
  unfold Function.import?
  split <;> simp_all

namespace Program

/-- Which imports provide the functions, tables and tags, and what the imports provide. -/
structure Paired (p : Program) : Prop where
  funcs : Links (p.funcs.map Function.import?) Import.func? p.imports
  tables : Links (p.tables.map Table.entry) Import.table? p.imports
  tags : Links (p.tags.map Tag.entry) Import.tag? p.imports

theorem Paired.linked {p : Program} (h : p.Paired) : p.Linked where
  func := by
    intro id f entry hf hkind
    simpa only [Import.func?_eq_some_iff] using
      h.funcs.entry hf (Function.import?_eq_some_iff.mpr hkind)
  table := by
    intro id t entry ht hentry
    simpa only [Import.table?_eq_some_iff] using h.tables.entry ht hentry
  tag := by
    intro id t entry ht hentry
    simpa only [Import.tag?_eq_some_iff] using h.tags.entry ht hentry
  toFunc := by
    intro entry i id hi htarget
    simpa only [Function.import?_eq_some_iff] using
      h.funcs.entity hi (Import.func?_eq_some_iff.mpr htarget)
  toTable := fun entry i id hi htarget => h.tables.entity hi (Import.table?_eq_some_iff.mpr htarget)
  toTag := fun entry i id hi htarget => h.tags.entity hi (Import.tag?_eq_some_iff.mpr htarget)

theorem Linked.paired {p : Program} (h : p.Linked) : p.Paired where
  funcs := by
    refine .of_entry_entity (fun hf hentry => ?_) fun hi htarget => ?_
    · simpa only [Import.func?_eq_some_iff] using
        h.func _ _ _ hf (Function.import?_eq_some_iff.mp hentry)
    · simpa only [Function.import?_eq_some_iff] using
        h.toFunc _ _ _ hi (Import.func?_eq_some_iff.mp htarget)
  tables := by
    refine .of_entry_entity (fun ht hentry => ?_)
      fun hi htarget => h.toTable _ _ _ hi (Import.table?_eq_some_iff.mp htarget)
    simpa only [Import.table?_eq_some_iff] using h.table _ _ _ ht hentry
  tags := by
    refine .of_entry_entity (fun ht hentry => ?_)
      fun hi htarget => h.toTag _ _ _ hi (Import.tag?_eq_some_iff.mp htarget)
    simpa only [Import.tag?_eq_some_iff] using h.tag _ _ _ ht hentry

/-- Reading an import keeps imports and what they provide in step. -/
theorem Takes.paired {p q : Program} {e : Wire.Import} (h : Takes p e q) (hp : p.Paired) :
    q.Paired := by
  obtain ⟨hfuncs, htables, htags⟩ := hp
  cases h with
  | func =>
    refine ⟨?_, htables.skip rfl, htags.skip rfl⟩
    rw [map_append]
    exact hfuncs.concat (by simp [Import.func?])
  | table =>
    refine ⟨hfuncs.skip rfl, ?_, htags.skip rfl⟩
    rw [map_append]
    exact htables.concat (by simp [Import.table?])
  | tag =>
    refine ⟨hfuncs.skip rfl, htables.skip rfl, ?_⟩
    rw [map_append]
    exact htags.concat (by simp [Import.tag?])
  | memory => exact ⟨hfuncs.skip rfl, htables.skip rfl, htags.skip rfl⟩
  | global => exact ⟨hfuncs.skip rfl, htables.skip rfl, htags.skip rfl⟩
  | other => exact ⟨hfuncs.skip rfl, htables.skip rfl, htags.skip rfl⟩

theorem Assembles.paired {m : Wire.Module} {q : Program} {tables : List Table}
    {exports : List Export} (h : Assembles m q tables exports) :
    (q.assembled m tables exports).Paired := by
  obtain ⟨types, -, hfolds⟩ := h.imports
  have hempty : Paired { types } := ⟨.nil _, .nil _, .nil _⟩
  obtain ⟨hfuncs, htables, htags⟩ :=
    hfolds.induction hempty fun p e r hp htakes => htakes.paired hp
  refine ⟨?_, ?_, ?_⟩
  · simp only [assembled, map_append]
    refine hfuncs.append ?_
    simp [declared, Function.import?]
  · simp only [assembled, map_append]
    refine htables.append fun entry hentry => ?_
    obtain ⟨table, htable, rfl⟩ := mem_map.mp hentry
    obtain ⟨_, -, _, -, rfl⟩ := forall₂_mem_right h.tabled htable
    rfl
  · simp only [assembled, map_append]
    refine htags.append ?_
    simp [tagged]

section Read

variable {m : Wire.Module} {p q s : Program} {tables : List Table} {exports : List Export}

section Read

variable (h : ReadFrom m p q s tables exports)

include h

theorem ReadFrom.import?_eq :
    p.funcs.map Function.import? = (q.assembled m tables exports).funcs.map Function.import? := by
  have hnamed : s.funcs.map Function.import? =
      (q.assembled m tables exports).funcs.map Function.import? := by
    have hunnamed : Function.import? = Function.import? ∘ Function.unnamed := rfl
    rw [hunnamed, ← map_map, ← map_map, h.renamed.funcs]
  rw [← hnamed]
  refine ext_getElem? fun k => ?_
  by_cases hk : k < q.funcs.length ∨ q.funcs.length + m.code.length ≤ k
  · rw [getElem?_map, getElem?_map, h.bodies.untouched k hk]
  · have hbound : q.funcs.length ≤ k ∧ k - q.funcs.length < m.code.length := by omega
    obtain ⟨_, _, b, f, hf, hkind, -, -⟩ := h.body (getElem?_eq_getElem hbound.2)
    rw [Nat.add_sub_cancel' hbound.1] at hf
    have himported := congrArg (·[k]?) h.isImported_eq
    simp only [getElem?_map, hf, Option.map_some] at himported
    obtain ⟨g, hg, hsame⟩ := Option.map_eq_some_iff.mp himported.symm
    have hf' : f.import? = none := by simp [Function.import?, hkind]
    have hg' : g.import? = none := by simpa [Function.isImported, hf'] using hsame
    rw [getElem?_map, getElem?_map, hf, hg, Option.map_some, Option.map_some, hf', hg']

theorem ReadFrom.paired : p.Paired := by
  obtain ⟨hfuncs, htables, htags⟩ := h.assembles.paired
  rw [← h.import?_eq] at hfuncs
  rw [h.parts]
  exact ⟨hfuncs, htables, htags⟩

theorem ReadFrom.typesKnown : ∀ t ∈ p.types, t.IsKnown := by
  have hknown : ∀ t ∈ p.typesWith [], t.IsKnown := (Altered.refl p).typesKnown h nofun
  simpa [typesWith] using hknown

/-- Variables are the parameters of known types and those that bodies declare. -/
theorem ReadFrom.localsKnown : ∀ v ∈ p.locals, v.IsKnown := by
  have hstart : s.locals = [] := by
    obtain ⟨types, -, hfolds⟩ := h.assembles.imports
    rw [h.renamed.rest, assembled, Folds.takes_rest hfolds]
  have htypes : s.types = p.types := by
    rw [h.bodies.rest]
  have hparams : ∀ type, ∀ v ∈ s.params type, v.IsKnown := by
    intro type v hv
    obtain ⟨sig, hsig, hmem⟩ : ∃ sig ∈ s.types, v ∈ sig.params := by
      unfold params at hv
      cases hsig : s.types[type]? with
      | none => simp [hsig] at hv
      | some sig => exact ⟨sig, mem_of_getElem? hsig, by simpa [hsig] using hv⟩
    exact h.typesKnown sig (htypes ▸ hsig) v (mem_append_left _ hmem)
  have hstep : ∀ (i : Nat) (code : Wire.FuncBody) (u v : Program), m.code[i]? = some code →
      (u.types = s.types ∧ ∀ type ∈ u.locals, type.IsKnown) →
      u.takeBody (q.funcs.length + i) code = .ok v →
      v.types = s.types ∧ ∀ type ∈ v.locals, type.IsKnown := by
    rintro i code u v - ⟨hu, hlocals⟩ hv
    obtain ⟨declared, b, hread, rfl⟩ := takeBody_eq_ok_iff.mp hv
    refine ⟨hu, fun type htype => ?_⟩
    rcases mem_append.mp htype with htype | htype
    · rcases mem_append.mp htype with htype | htype
      · exact hlocals type htype
      · rw [params, hu] at htype
        exact hparams _ type htype
    · exact declaredTypes_known hread.types type htype
  exact (foldNumbered_induction (motive := fun _ r => r.types = s.types ∧
    ∀ type ∈ r.locals, type.IsKnown) h.read ⟨rfl, by simp [hstart]⟩ hstep).2

theorem ReadFrom.nested {f : Function} (hf : f ∈ p.funcs) {b : Body} (hkind : f.kind = .defined b) :
    Nested b.seqs ∧ b.entry = 0 := by
  obtain ⟨k, hk⟩ := getElem?_of_mem hf
  obtain ⟨i, rfl, hi⟩ := h.defined hk hkind
  obtain ⟨_, _, b', f', hf', hkind', hread, -⟩ := h.body (getElem?_eq_getElem hi)
  cases hk.symm.trans hf'
  cases hkind.symm.trans hkind'
  exact ⟨Body.seqsOfCode_nested hread.seqs, hread.entry⟩

theorem ReadFrom.wellFormed : p.WellFormed where
  funcTypes := h.funcTypes
  linked := h.paired.linked
  signatures := by
    intro t ht
    exact h.typesKnown t ht
  locals := h.localsKnown
  bodies := by
    intro f hf b hkind
    obtain ⟨hnested, hentry⟩ := h.nested hf hkind
    exact Body.isTree_of_nested hnested hentry

end Read

end Read

end Program

end HostCatch
