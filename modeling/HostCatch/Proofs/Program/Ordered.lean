import HostCatch.Program.Numbering
import HostCatch.Proofs.Program.Skeleton

namespace HostCatch

open List

/-- Imported entities come first, and imports name them in their order. -/
def InOrder (imported : List Bool) (targets : List Nat) : Prop :=
  targets = List.range targets.length ∧
    ∃ n, imported = List.replicate targets.length true ++ List.replicate n false

namespace InOrder

variable {imported : List Bool} {targets : List Nat}

theorem length_le (h : InOrder imported targets) : targets.length ≤ imported.length := by
  obtain ⟨-, n, h⟩ := h
  rw [h, length_append, length_replicate]
  omega

theorem append (h : InOrder imported targets) (n : Nat) :
    InOrder (imported ++ List.replicate n false) targets := by
  obtain ⟨hrange, k, h⟩ := h
  exact ⟨hrange, k + n, by rw [h, append_assoc, replicate_append_replicate]⟩

theorem length_of_all (h : InOrder imported targets) (hall : ∀ b ∈ imported, b = true) :
    targets.length = imported.length := by
  obtain ⟨-, n, rfl⟩ := h
  cases n with
  | zero => simp
  | succ n => exact absurd (hall false (by simp)) (by simp)

theorem importOne (h : InOrder imported targets) (hall : ∀ b ∈ imported, b = true) {n : Nat}
    (hn : imported.length = n) : InOrder (imported ++ [true]) (targets ++ [n]) := by
  have hlength := h.length_of_all hall
  refine ⟨?_, 0, ?_⟩
  · rw [length_append, length_singleton, range_succ, ← h.1, hlength, hn]
  · rw [eq_replicate_iff.mpr ⟨rfl, hall⟩]
    simp [replicate_succ', hlength]

theorem skip (h : InOrder imported targets) : InOrder imported (targets ++ []) := by
  rwa [append_nil]

end InOrder

namespace Program

variable {α : Type} {targets : List Nat} {p q : Program} {es : List Wire.Import}
  {imported : α → Bool}

theorem positions_map {β : Type} (select : β → Bool) (g : α → β) (as : List α) :
    positions select (as.map g) = positions (fun a => select (g a)) as := by
  simp [positions, zipIdx_map, filterMap_map]

theorem positions_split (n k : Nat) :
    positions (!·) (List.replicate n true ++ List.replicate k false) = List.range' n k := by
  have hfirst : ∀ start, ((List.replicate n true).zipIdx start).filterMap
      (fun (a, i) => if !a then some i else none) = [] := by
    intro start
    rw [filterMap_eq_nil_iff]
    rintro ⟨a, i⟩ h
    have := fst_mem_of_mem_zipIdx h
    simp_all
  have hrest : ∀ start, ((List.replicate k false).zipIdx start).filterMap
      (fun (a, i) => if !a then some i else none) = List.range' start k := by
    induction k with
    | zero => simp
    | succ k ih =>
      intro start
      rw [replicate_succ, zipIdx_cons, filterMap_cons, ih, range'_succ]
      rfl
  rw [positions, zipIdx_append, filterMap_append, hfirst, hrest]
  simp

theorem positions_of_inOrder {as : List α} (h : InOrder (as.map imported) targets) :
    positions (fun a => !imported a) as =
      List.range' targets.length (as.length - targets.length) := by
  obtain ⟨-, n, h⟩ := h
  have hlength := congrArg List.length h
  simp only [length_map, length_append, length_replicate] at hlength
  rw [← positions_map (!·), h, positions_split]
  congr 1
  omega

theorem order_of_inOrder {as : List α} (h : InOrder (as.map imported) targets) :
    targets ++ positions (fun a => !imported a) as = List.range as.length := by
  have hle := h.length_le
  rw [length_map] at hle
  rw [positions_of_inOrder h]
  nth_rewrite 1 [h.1]
  rw [range_eq_range', range_eq_range']
  have hsplit : List.range' 0 targets.length ++
      List.range' (0 + 1 * targets.length) (as.length - targets.length) =
      List.range' 0 (targets.length + (as.length - targets.length)) := range'_append
  rwa [Nat.one_mul, Nat.zero_add, Nat.add_sub_cancel' hle] at hsplit

/-- Imported functions, tables and tags come before the others, in the order of their imports. -/
structure Ordered (p : Program) : Prop where
  funcs : InOrder (p.funcs.map Function.isImported) (p.imports.filterMap Import.func?)
  tables : InOrder (p.tables.map (·.entry.isSome)) (p.imports.filterMap Import.table?)
  tags : InOrder (p.tags.map (·.entry.isSome)) (p.imports.filterMap Import.tag?)

theorem Ordered.numbering (h : p.Ordered) :
    p.numbering = ⟨List.range p.funcs.length, List.range p.tables.length, List.range p.tags.length⟩ := by
  have htables := order_of_inOrder h.tables
  have htags := order_of_inOrder h.tags
  simp only [Option.not_isSome] at htables htags
  simp only [Program.numbering, definedFuncs, definedTables, definedTags, htables, htags,
    order_of_inOrder h.funcs]

theorem Ordered.definedFuncs (h : p.Ordered) :
    p.definedFuncs = List.range' (p.imports.filterMap Import.func?).length
      (p.funcs.length - (p.imports.filterMap Import.func?).length) :=
  positions_of_inOrder h.funcs

/-- Nothing but imports has been read. -/
structure AllImported (p : Program) : Prop extends Ordered p where
  funcsImported : ∀ b ∈ p.funcs.map Function.isImported, b = true
  tablesImported : ∀ b ∈ p.tables.map (·.entry.isSome), b = true
  tagsImported : ∀ b ∈ p.tags.map (·.entry.isSome), b = true

theorem Takes.allImported {e : Wire.Import} (h : Takes p e q) (hp : p.AllImported) :
    q.AllImported := by
  obtain ⟨⟨hfuncs, htables, htags⟩, hf, ht, hg⟩ := hp
  have hadd : ∀ {bs : List Bool}, (∀ b ∈ bs, b = true) → ∀ b ∈ bs ++ [true], b = true := by
    simp +contextual [or_imp]
  cases h with
  | func _ =>
    refine ⟨⟨?_, ?_, ?_⟩, ?_, ht, hg⟩
    all_goals simp only [filterMap_append, map_append]
    · exact hfuncs.importOne hf (length_map _)
    · exact htables.skip
    · exact htags.skip
    · exact hadd hf
  | table _ =>
    refine ⟨⟨?_, ?_, ?_⟩, hf, ?_, hg⟩
    all_goals simp only [filterMap_append, map_append]
    · exact hfuncs.skip
    · exact htables.importOne ht (length_map _)
    · exact htags.skip
    · exact hadd ht
  | tag =>
    refine ⟨⟨?_, ?_, ?_⟩, hf, ht, ?_⟩
    all_goals simp only [filterMap_append, map_append]
    · exact hfuncs.skip
    · exact htables.skip
    · exact htags.importOne hg (length_map _)
    · exact hadd hg
  | memory | global | other =>
    refine ⟨⟨?_, ?_, ?_⟩, hf, ht, hg⟩
    all_goals simp only [filterMap_append]
    · exact hfuncs.skip
    · exact htables.skip
    · exact htags.skip

theorem Folds.takes_rest (h : Folds Takes p es q) :
    q = { p with imports := q.imports, funcs := q.funcs, tables := q.tables, tags := q.tags } := by
  refine h.induction (motive := fun q => q = { p with
    imports := q.imports, funcs := q.funcs, tables := q.tables, tags := q.tags }) rfl ?_
  intro q e r hq hr
  rw [hq] at hr
  cases hr <;> rfl

theorem Folds.takes_allImported {types : List Signature} (h : Folds Takes { types } es q) :
    q.AllImported := by
  refine h.induction ?_ fun _ _ _ hp htakes => htakes.allImported hp
  exact ⟨⟨⟨rfl, 0, rfl⟩, ⟨rfl, 0, rfl⟩, ⟨rfl, 0, rfl⟩⟩, by simp, by simp, by simp⟩

/-- What is read has its imports first, in every list. -/
theorem Assembles.ordered {m : Wire.Module} {tables : List Table} {exports : List Export}
    (h : Assembles m q tables exports) : (q.assembled m tables exports).Ordered := by
  obtain ⟨types, -, himports⟩ := h.imports
  obtain ⟨hfuncs, htables, htags⟩ := himports.takes_allImported.toOrdered
  have hdeclared : (m.funcs.map declared).map Function.isImported =
      List.replicate m.funcs.length false := by
    simp [Function.comp_def, declared, Function.isImported, Function.import?, map_const']
  have htabled : tables.map (·.entry.isSome) = List.replicate tables.length false := by
    refine eq_replicate_iff.mpr ⟨by simp, fun b hb => ?_⟩
    obtain ⟨table, htable, rfl⟩ := mem_map.mp hb
    obtain ⟨t, -, elem, -, rfl⟩ := forall₂_mem_right h.tabled htable
    rfl
  have htagged : (m.tags.map tagged).map (·.entry.isSome) = List.replicate m.tags.length false := by
    simp [Function.comp_def, tagged, map_const']
  refine ⟨?_, ?_, ?_⟩
  · simpa only [assembled, map_append, hdeclared] using hfuncs.append _
  · simpa only [assembled, map_append, htabled] using htables.append _
  · simpa only [assembled, map_append, htagged] using htags.append _

end Program

end HostCatch
