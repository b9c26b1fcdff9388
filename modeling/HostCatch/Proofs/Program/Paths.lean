import HostCatch.Proofs.Program.Trees

namespace HostCatch

open List

/-- The sequences to whose labels an instruction may branch. -/
def Instr.targets : Instr → List SeqId
  | br target => [target]
  | brIf target => [target]
  | brTable targets default => targets ++ [default]
  | tryTable _ clauses => clauses.map Clause.label
  | _ => []

namespace Body

variable {labels : List SeqId} {id : SeqId} {visits : List Visit} {b : Body}

/-- The sequences that enclose the code of a sequence, from itself outwards to the entry. -/
inductive Path (b : Body) : SeqId → List SeqId → Prop
  | entry : Path b b.entry [b.entry]
  | nested {seq child : SeqId} {labels : List SeqId} {index : Nat} {i : Instr} :
      Path b seq labels → b.instr? seq index = some i → child ∈ i.children →
      Path b child (child :: labels)

theorem ReachesFrom.path {root seq : SeqId} (h : b.ReachesFrom root seq)
    (hroot : b.Path root labels) : ∃ labels, b.Path seq labels := by
  induction h generalizing labels with
  | refl => exact ⟨labels, hroot⟩
  | step hi hchild _ ih => exact ih (hroot.nested hi hchild)

theorem Path.reaches {seq : SeqId} (h : b.Path seq labels) : b.Reaches seq := by
  induction h with
  | entry => exact .refl _
  | nested _ hi hchild ih => exact ReachesFrom.trans ih (.step hi hchild (.refl _))

theorem walkSeq_mono {bound : Nat} (h : b.walkSeq bound id = .ok visits) :
    b.walkSeq (bound + 1) id = .ok visits := by
  induction bound generalizing id visits with
  | zero => simp [walkSeq] at h
  | succ bound ih =>
    obtain ⟨s, parts, hs, rfl, hparts⟩ := walkSeq_succ_eq_ok_iff.mp h
    refine walkSeq_succ_eq_ok_iff.mpr ⟨s, parts, hs, rfl, hparts.imp ?_⟩
    rintro entry part ⟨nested, hnested, rfl⟩
    exact ⟨nested, hnested.imp fun _ _ hwalk => ih hwalk, rfl⟩

/-- A place is met no more often than its sequence is entered, by way of `id` or from inside. -/
def MeetsOnce (id : SeqId) (visits : List Visit) (place : SeqId × Nat) : Prop :=
  (visits.map Visit.place).count place ≤
    (id :: visits.flatMap fun v => v.instr.children).count place.1

theorem count_place_nested {children : List SeqId} {nested : List (List Visit)}
    {place : SeqId × Nat}
    (h : Forall₂ (fun child visits => MeetsOnce child visits place) children nested) :
    (nested.flatten.map Visit.place).count place ≤
      (children ++ nested.flatten.flatMap fun v => v.instr.children).count place.1 := by
  induction h with
  | nil => simp
  | @cons child visits children nested hchild _ ih =>
    simp only [MeetsOnce, flatten_cons, map_append, flatMap_append,
      count_append, cons_append, count_cons] at hchild ih ⊢
    omega

theorem count_place_parts {entries : List (Instr × Nat)} {parts : List (List Visit)}
    (place : SeqId × Nat)
    (h : Forall₂ (fun (entry : Instr × Nat) part =>
      ∃ nested, Forall₂ (fun child visits => MeetsOnce child visits place) entry.1.children nested ∧
        part = ⟨id, entry.2, entry.1⟩ :: nested.flatten) entries parts) :
    (parts.flatten.map Visit.place).count place ≤
      (entries.map fun entry => (id, entry.2)).count place +
        (parts.flatten.flatMap fun v => v.instr.children).count place.1 := by
  induction h with
  | nil => simp
  | @cons entry part entries parts hpart _ ih =>
    obtain ⟨nested, hnested, rfl⟩ := hpart
    have hinner := count_place_nested hnested
    simp only [flatten_cons, map_append, map_cons, flatMap_append,
      flatMap_cons, count_append, count_cons, Visit.place] at hinner ih ⊢
    omega

theorem count_place_own (id : SeqId) (is : List Instr) (place : SeqId × Nat) :
    (is.zipIdx.map fun entry => (id, entry.2)).count place ≤ [id].count place.1 := by
  have hnodup : (is.zipIdx.map ((fun k => (id, k)) ∘ Prod.snd)).Nodup := by
    rw [← map_map, zipIdx_map_snd]
    exact Nodup.map (fun _ _ h => (Prod.mk.inj h).2) nodup_range'
  by_cases hid : id = place.1
  · rw [hid, count_singleton_self]
    exact hid ▸ nodup_iff_count_le_one.mp hnodup place
  · have hnone : place ∉ is.zipIdx.map fun entry => (id, entry.2) := by
      intro hmem
      obtain ⟨entry, -, rfl⟩ := mem_map.mp hmem
      exact hid rfl
    rw [count_eq_zero.mpr hnone]
    exact Nat.zero_le _

theorem walkSeq_meetsOnce {bound : Nat} (h : b.walkSeq bound id = .ok visits) (place : SeqId × Nat) :
    MeetsOnce id visits place := by
  induction bound generalizing id visits with
  | zero => simp [walkSeq] at h
  | succ bound ih =>
    obtain ⟨s, parts, hs, rfl, hparts⟩ := walkSeq_succ_eq_ok_iff.mp h
    have hall := count_place_parts place <| hparts.imp fun entry part hpart => by
      obtain ⟨nested, hnested, rfl⟩ := hpart
      exact ⟨nested, hnested.imp fun _ _ hwalk => ih hwalk, rfl⟩
    have hown := count_place_own id s.instrs place
    rw [MeetsOnce, ← singleton_append, count_append]
    omega

theorem IsTree.places_nodup (h : b.IsTree) :
    ∃ visits, b.walk = .ok visits ∧ (visits.map Visit.place).Nodup := by
  obtain ⟨visits, hwalk, hentered⟩ := h
  refine ⟨visits, hwalk, nodup_iff_count_le_one.mpr fun place => ?_⟩
  exact Nat.le_trans (walkSeq_meetsOnce hwalk place) (nodup_iff_count_le_one.mp hentered place.1)

/-- What the walk of a sequence meets. -/
def inside (b : Body) (id : SeqId) : List Visit :=
  (b.walkSeq b.seqs.length id).toOption.getD []

/-- What the walk of a sequence meets from an instruction on. -/
def onward (b : Body) (id : SeqId) (index : Nat) : List Visit :=
  ((((b.seqs[id]?.map Seq.instrs).getD []).zipIdx).drop index).flatMap fun entry =>
    ⟨id, entry.2, entry.1⟩ :: entry.1.children.flatMap b.inside

theorem onward_of_none {index : Nat} (h : b.instr? id index = none) : b.onward id index = [] := by
  unfold onward
  rw [drop_eq_nil_of_le, flatMap_nil]
  rw [length_zipIdx]
  cases hs : b.seqs[id]? with
  | none => exact Nat.zero_le _
  | some s =>
    rw [instr?_of_seq hs] at h
    exact getElem?_eq_none_iff.mp h

theorem onward_of_some {index : Nat} {i : Instr} (h : b.instr? id index = some i) :
    b.onward id index =
      ⟨id, index, i⟩ :: (i.children.flatMap b.inside ++ b.onward id (index + 1)) := by
  obtain ⟨s, hs, hi⟩ := Option.bind_eq_some_iff.mp h
  obtain ⟨hlt, rfl⟩ := List.getElem?_eq_some_iff.mp hi
  unfold onward
  rw [hs, Option.map_some, Option.getD_some,
    List.drop_eq_getElem_cons (by rw [List.length_zipIdx]; exact hlt), List.flatMap_cons,
    getElem_zipIdx, Nat.zero_add, cons_append]

section Nested

variable {b : Body} (hb : Nested b.seqs)

include hb

theorem walkSeq_eq_inside (hid : id < b.seqs.length) :
    b.walkSeq b.seqs.length id = .ok (b.inside id) := by
  obtain ⟨visits, hvisits⟩ := walkSeq_of_nested hb hid (Nat.le_add_left _ _)
  rw [inside, hvisits]
  rfl

theorem walk_eq_inside (hentry : b.entry = 0) : b.walk = .ok (b.inside 0) := by
  have hpos : 0 < b.seqs.length := mem_range.mp (hb.perm.subset mem_cons_self)
  rw [walk, hentry]
  exact walkSeq_mono (walkSeq_eq_inside hb hpos)

theorem inside_eq_onward (hid : id < b.seqs.length) : b.inside id = b.onward id 0 := by
  obtain ⟨visits, hvisits⟩ := walkSeq_of_nested hb hid (Nat.le_add_left _ _)
  obtain ⟨s, parts, hs, rfl, hparts⟩ := walkSeq_succ_eq_ok_iff.mp (walkSeq_mono hvisits)
  have hinside : ∀ child vs, b.walkSeq b.seqs.length child = .ok vs → b.inside child = vs := by
    intro child vs hwalk
    rw [inside, hwalk]
    rfl
  have hmap : s.instrs.zipIdx.map (fun entry =>
      ⟨id, entry.2, entry.1⟩ :: entry.1.children.flatMap b.inside) = parts := by
    rw [← forall₂_eq_eq_eq, forall₂_map_left_iff]
    refine hparts.imp ?_
    rintro entry part ⟨nested, hnested, rfl⟩
    have hchildren : entry.1.children.map b.inside = nested := by
      rw [← forall₂_eq_eq_eq, forall₂_map_left_iff]
      exact hnested.imp hinside
    rw [flatMap_def, hchildren]
  rw [hinside id _ hvisits, onward, hs, Option.map_some, Option.getD_some, drop_zero,
    flatMap_def, hmap]

/-- A sequence is reached by one path only. -/
theorem Path.unique (hentry : b.entry = 0) {seq : SeqId} {labels' : List SeqId}
    (h : b.Path seq labels) (h' : b.Path seq labels') : labels' = labels := by
  have hpos : ∀ {parent child index i}, b.instr? parent index = some i → child ∈ i.children →
      ∃ s, b.seqs[parent]? = some s ∧ child ∈ s.children ∧ child ≠ b.entry := by
    intro parent child index i hi hchild
    obtain ⟨s, hs, hmem⟩ := mem_children_iff.mpr ⟨index, i, hi, hchild⟩
    have hlt := hb.ascending parent s hs child hmem
    exact ⟨s, hs, hmem, hentry ▸ Nat.ne_of_gt (Nat.zero_lt_of_lt hlt)⟩
  induction h generalizing labels' with
  | entry =>
    generalize hseq : b.entry = seq at h'
    cases h' with
    | entry => rfl
    | nested _ hi hchild =>
      obtain ⟨_, -, -, hne⟩ := hpos hi hchild
      exact absurd hseq.symm hne
  | @nested parent child _ _ _ _ hi hchild ih =>
    obtain ⟨s, hs, hmem, hne⟩ := hpos hi hchild
    cases h' with
    | entry => exact absurd rfl hne
    | nested hparent hi' hchild' =>
      obtain ⟨s', hs', hmem', -⟩ := hpos hi' hchild'
      obtain rfl := parent_unique hb hs hs' hmem hmem'
      rw [ih hparent]

end Nested

end Body

end HostCatch
