import HostCatch.Proofs.Program.Reading
import HostCatch.Proofs.Program.Walk

namespace HostCatch

open List

/-- The sequences nested in the instructions of a sequence. -/
def Seq.children (s : Seq) : List SeqId :=
  s.instrs.flatMap Instr.children

/-- The sequences of an open construct, which no instruction contains yet. -/
def Frame.owned (f : Frame) : List SeqId :=
  (f.construct?.map Instr.children).getD []

/-- Every sequence but the first is nested in one instruction, which stands in a sequence before it.
-/
structure Nested (seqs : List Seq) : Prop where
  perm : (0 :: seqs.flatMap Seq.children).Perm (List.range seqs.length)
  ascending : ∀ (id : SeqId) s, seqs[id]? = some s → ∀ child ∈ s.children, id < child

theorem nested_of_children {seqs : List Seq} {children : List (List SeqId)}
    (h : seqs.map Seq.children = children)
    (hperm : (0 :: children.flatten).Perm (List.range children.length))
    (hascending : ∀ id < children.length, ∀ child ∈ children[id]?.getD [], id < child) :
    Nested seqs where
  perm := by
    rwa [flatMap_def, h, ← length_map (f := Seq.children), h]
  ascending := by
    intro id s hs child hchild
    have hid : children[id]? = some s.children := by rw [← h, getElem?_map, hs]; rfl
    exact hascending id (lt_of_getElem? hid) child (by rw [hid]; exact hchild)

namespace Body

variable {target : SeqId} {bound : Nat} {visits : List Visit} {b : Body}

theorem ReachesFrom.trans {root mid : SeqId} (h : b.ReachesFrom root mid)
    (htarget : b.ReachesFrom mid target) : b.ReachesFrom root target := by
  induction h with
  | refl => exact htarget
  | step hi hchild _ ih => exact .step hi hchild (ih htarget)

theorem mem_children_iff {seq child : SeqId} : (∃ s, b.seqs[seq]? = some s ∧ child ∈ s.children) ↔
      ∃ index i, b.instr? seq index = some i ∧ child ∈ i.children := by
  constructor
  · rintro ⟨s, hs, hchild⟩
    obtain ⟨i, hi, hchild⟩ := mem_flatMap.mp hchild
    obtain ⟨index, hindex⟩ := mem_iff_getElem?.mp hi
    exact ⟨index, i, by rw [instr?_of_seq hs, hindex], hchild⟩
  · rintro ⟨index, i, hi, hchild⟩
    obtain ⟨s, hs, hi⟩ := Option.bind_eq_some_iff.mp hi
    exact ⟨s, hs, mem_flatMap.mpr ⟨i, mem_of_getElem? hi, hchild⟩⟩

theorem ReachesFrom.last {root : SeqId} (h : b.ReachesFrom root target) :
    root = target ∨ ∃ parent s, b.ReachesFrom root parent ∧ b.seqs[parent]? = some s ∧
      target ∈ s.children := by
  induction h with
  | refl => exact .inl rfl
  | step hi hchild _ ih =>
    right
    rcases ih with rfl | ⟨parent, s, hreach, hs, htarget⟩
    · obtain ⟨s, hs, hchild⟩ := mem_children_iff.mpr ⟨_, _, hi, hchild⟩
      exact ⟨_, s, .refl _, hs, hchild⟩
    · exact ⟨parent, s, .step hi hchild hreach, hs, htarget⟩

/-- The sequences that the walk of a sequence enters besides it. -/
def entered (b : Body) (bound : Nat) (id : SeqId) : List SeqId :=
  match b.walkSeq bound id with
  | .ok visits => visits.flatMap (·.instr.children)
  | .error _ => []

theorem entered_of_walkSeq {id : SeqId} (h : b.walkSeq bound id = .ok visits) :
    b.entered bound id = visits.flatMap (·.instr.children) := by
  rw [entered, h]

theorem children_perm {children : List SeqId} {nested : List (List Visit)}
    (h : Forall₂ (fun child vs => b.walkSeq bound child = .ok vs) children nested) :
    (children ++ nested.flatten.flatMap (·.instr.children)).Perm
      (children.flatMap fun child => child :: b.entered bound child) := by
  induction h with
  | nil => exact .nil
  | @cons child vs children nested hchild _ ih =>
    rw [flatMap_cons, entered_of_walkSeq hchild, flatten_cons, flatMap_append,
      cons_append, cons_append]
    refine .cons child ?_
    rw [← append_assoc]
    refine (perm_append_comm.append_right _).trans ?_
    rw [append_assoc]
    exact ih.append_left _

theorem entered_perm {id : SeqId} {s : Seq} (h : b.walkSeq (bound + 1) id = .ok visits)
    (hs : b.seqs[id]? = some s) :
    (b.entered (bound + 1) id).Perm
      (s.children.flatMap fun child => child :: b.entered bound child) := by
  rw [entered_of_walkSeq h]
  obtain ⟨s', parts, hs', rfl, hparts⟩ := walkSeq_succ_eq_ok_iff.mp h
  cases hs.symm.trans hs'
  have hall : ∀ {entries : List (Instr × Nat)} {parts : List (List Visit)},
      Forall₂ (fun (entry : Instr × Nat) part =>
        ∃ nested, Forall₂ (fun child vs => b.walkSeq bound child = .ok vs) entry.1.children nested ∧
          part = ⟨id, entry.2, entry.1⟩ :: nested.flatten) entries parts →
      (parts.flatten.flatMap (·.instr.children)).Perm
        ((entries.map Prod.fst).flatMap fun i =>
          i.children.flatMap fun child => child :: b.entered bound child) := by
    intro entries parts h
    induction h with
    | nil => exact .nil
    | cons hpart _ ih =>
      obtain ⟨nested, hnested, rfl⟩ := hpart
      rw [flatten_cons, flatMap_append, flatMap_cons, map_cons, flatMap_cons]
      exact (children_perm hnested).append ih
  have hperm := hall hparts
  rwa [zipIdx_map_fst, ← flatMap_assoc] at hperm

section Nested

variable {b : Body} (hb : Nested b.seqs)

include hb

variable {child : SeqId} {s : Seq}

theorem child_lt {seq : SeqId} (hs : b.seqs[seq]? = some s) (hchild : child ∈ s.children) :
    child < b.seqs.length := by
  have hmem : child ∈ b.seqs.flatMap Seq.children :=
    mem_flatMap.mpr ⟨s, mem_of_getElem? hs, hchild⟩
  exact mem_range.mp (hb.perm.subset (mem_cons_of_mem 0 hmem))

theorem ReachesFrom.le {root : SeqId} (h : b.ReachesFrom root target) : root ≤ target := by
  induction h with
  | refl => exact Nat.le_refl _
  | step hi hchild _ ih =>
    obtain ⟨s, hs, hchild⟩ := mem_children_iff.mpr ⟨_, _, hi, hchild⟩
    exact Nat.le_trans (Nat.le_of_lt (hb.ascending _ s hs _ hchild)) ih

theorem parent_unique {seq seq' : SeqId} {s' : Seq} (hs : b.seqs[seq]? = some s)
    (hs' : b.seqs[seq']? = some s') (hchild : child ∈ s.children) (hchild' : child ∈ s'.children) :
    seq = seq' := by
  have hnodup : (b.seqs.flatMap Seq.children).Nodup :=
    (nodup_cons.mp (hb.perm.nodup_iff.mpr nodup_range)).2
  obtain ⟨hlt, rfl⟩ := List.getElem?_eq_some_iff.mp hs
  obtain ⟨hlt', rfl⟩ := List.getElem?_eq_some_iff.mp hs'
  have hapart := List.pairwise_iff_getElem.mp (List.nodup_flatMap.mp hnodup).2
  rcases Nat.lt_trichotomy seq seq' with h | h | h
  · exact absurd hchild' (hapart seq seq' hlt hlt' h hchild)
  · exact h
  · exact absurd hchild (hapart seq' seq hlt' hlt h hchild')

theorem ReachesFrom.chain {root root' : SeqId} (h : b.ReachesFrom root target)
    (h' : b.ReachesFrom root' target) : b.ReachesFrom root root' ∨ b.ReachesFrom root' root := by
  induction target using Nat.strongRecOn with
  | ind target ih =>
    rcases h.last with rfl | ⟨parent, s, hreach, hs, hchild⟩
    · exact .inr h'
    rcases h'.last with rfl | ⟨parent', s', hreach', hs', hchild'⟩
    · exact .inl h
    obtain rfl := parent_unique hb hs hs' hchild hchild'
    exact ih parent (hb.ascending parent s hs target hchild) hreach hreach'

theorem ReachesFrom.apart {parent : SeqId} (hs : b.seqs[parent]? = some s) {child' : SeqId}
    (hchild : child ∈ s.children) (hchild' : child' ∈ s.children) (hne : child ≠ child')
    (h : b.ReachesFrom child target) : ¬ b.ReachesFrom child' target := by
  -- Were one nested in the other, its parent would be nested in its own child.
  have hno : ∀ c c', c ∈ s.children → c' ∈ s.children → c ≠ c' → ¬ b.ReachesFrom c c' := by
    intro c c' hc hc' hne hreach
    rcases hreach.last with rfl | ⟨mid, t, hmid, ht, hc''⟩
    · exact hne rfl
    obtain rfl := parent_unique hb hs ht hc' hc''
    exact Nat.not_le_of_lt (hb.ascending parent s hs c hc) (hmid.le hb)
  intro h'
  rcases h.chain hb h' with hreach | hreach
  · exact hno child child' hchild hchild' hne hreach
  · exact hno child' child hchild' hchild hne.symm hreach

theorem reaches_of_nested {id : SeqId} (hid : id < b.seqs.length) : b.ReachesFrom 0 id := by
  induction id using Nat.strongRecOn with
  | ind id ih =>
    rcases mem_cons.mp (hb.perm.symm.subset (mem_range.mpr hid)) with rfl | hmem
    · exact .refl 0
    · obtain ⟨s, hs, hchild⟩ := mem_flatMap.mp hmem
      obtain ⟨parent, hparent⟩ := mem_iff_getElem?.mp hs
      have hlt := hb.ascending parent s hparent id hchild
      obtain ⟨index, i, hi, hchild⟩ := mem_children_iff.mp ⟨s, hparent, hchild⟩
      exact (ih parent hlt (Nat.lt_trans hlt hid)).trans (.step hi hchild (.refl id))

/-- A walk of nested sequences ends within their number. -/
theorem walkSeq_of_nested {id : Nat} (hid : id < b.seqs.length)
    (hbound : b.seqs.length ≤ id + bound) : ∃ visits, b.walkSeq bound id = .ok visits := by
  induction bound generalizing id with
  | zero => omega
  | succ bound ih =>
    have hs := getElem?_eq_getElem hid
    have hnested : ∀ i ∈ b.seqs[id].instrs, ∃ nested,
        Forall₂ (fun child vs => b.walkSeq bound child = .ok vs) i.children nested := by
      intro i hi
      refine exists_forall₂ fun child hchild => ?_
      have hmem : child ∈ b.seqs[id].children := mem_flatMap.mpr ⟨i, hi, hchild⟩
      have hlt : id < child := hb.ascending id _ hs child hmem
      exact ih (child_lt hb hs hmem) (by omega)
    obtain ⟨parts, hparts⟩ : ∃ parts, Forall₂ (fun (entry : Instr × Nat) part =>
        ∃ nested, Forall₂ (fun child vs => b.walkSeq bound child = .ok vs) entry.1.children nested ∧
          part = ⟨id, entry.2, entry.1⟩ :: nested.flatten) b.seqs[id].instrs.zipIdx parts := by
      refine exists_forall₂ fun entry hentry => ?_
      obtain ⟨nested, hall⟩ := hnested entry.1 (fst_mem_of_mem_zipIdx hentry)
      exact ⟨_, nested, hall, rfl⟩
    exact ⟨_, walkSeq_succ_eq_ok_iff.mpr ⟨_, parts, hs, rfl, hparts⟩⟩

theorem reachesFrom_of_entered {id : SeqId} (h : target ∈ b.entered bound id) :
    b.ReachesFrom id target ∧ id < target := by
  unfold entered at h
  split at h
  next visits hvisits =>
    obtain ⟨v, hv, hchild⟩ := mem_flatMap.mp h
    obtain ⟨hreach, hinstr⟩ := walkSeq_visit hvisits hv
    obtain ⟨s, hs, hmem⟩ := mem_children_iff.mpr ⟨v.index, v.instr, hinstr, hchild⟩
    exact ⟨hreach.trans (.step hinstr hchild (.refl target)),
      Nat.lt_of_le_of_lt (hreach.le hb) (hb.ascending v.seq s hs target hmem)⟩
  next => cases h

/-- No sequence is entered twice. -/
theorem entered_nodup (bound : Nat) (id : SeqId) : (id :: b.entered bound id).Nodup := by
  refine nodup_cons.mpr ⟨fun h => Nat.lt_irrefl id (reachesFrom_of_entered hb h).2, ?_⟩
  induction bound generalizing id with
  | zero => exact .nil
  | succ bound ih =>
    cases hwalk : b.walkSeq (bound + 1) id with
    | error _ =>
      rw [entered, hwalk]
      exact .nil
    | ok visits =>
      obtain ⟨s, -, hs, -⟩ := walkSeq_succ_eq_ok_iff.mp hwalk
      refine (entered_perm hwalk hs).nodup_iff.mpr (nodup_flatMap.mpr ⟨?_, ?_⟩)
      · intro child _
        exact nodup_cons.mpr
          ⟨fun h => Nat.lt_irrefl child (reachesFrom_of_entered hb h).2, ih child⟩
      · have hnodup : s.children.Nodup := by
          have hall := (nodup_cons.mp (hb.perm.nodup_iff.mpr nodup_range)).2
          exact (nodup_flatMap.mp hall).1 s (mem_of_getElem? hs)
        have hreach : ∀ child target, target ∈ child :: b.entered bound child →
            b.ReachesFrom child target := by
          intro child target h
          rcases mem_cons.mp h with rfl | h
          · exact .refl target
          · exact (reachesFrom_of_entered hb h).1
        refine hnodup.imp_of_mem fun {child child'} hchild hchild' hne target h h' => ?_
        exact (hreach child target h).apart hb hs hchild hchild' hne (hreach child' target h')

theorem isTree_of_nested (hentry : b.entry = 0) : b.IsTree := by
  have hpos : 0 < b.seqs.length :=
    mem_range.mp (hb.perm.subset mem_cons_self)
  obtain ⟨visits, hvisits⟩ : ∃ visits, b.walkSeq (b.seqs.length + 1) 0 = .ok visits :=
    walkSeq_of_nested hb hpos (by omega)
  rw [← hentry] at hvisits
  refine ⟨visits, hvisits, ?_⟩
  rw [← entered_of_walkSeq hvisits]
  exact entered_nodup hb _ _

end Nested

end Body

theorem Scope.Plain.children {scope : Scope} {frames : List Frame} {i : Wire.Instr} {j : Instr}
    (h : scope.Plain frames i j) : j.children = [] := by
  cases h <;> rfl

namespace Reading

/-- Every sequence but the first belongs to an instruction or to an open construct, and to a later
one than the sequences that this stands in. -/
structure Nests (r : Reading) : Prop where
  perm : (0 :: (r.seqs.flatMap Seq.children ++ r.frames.flatMap Frame.owned)).Perm
    (List.range r.seqs.length)
  ascending : ∀ (id : SeqId) s, r.seqs[id]? = some s → ∀ child ∈ s.children, id < child
  inside : r.frames.Pairwise fun inner outer => ∀ child ∈ inner.owned, outer.seq < child
  bottom : ∀ f ∈ r.frames.getLast?, f.role = .entry

theorem modify_children {seqs : List Seq} {id : Nat} (hid : id < seqs.length) (i : Instr) :
    ((seqs.modify id fun s => { s with instrs := s.instrs ++ [i] }).flatMap Seq.children).Perm
      (seqs.flatMap Seq.children ++ i.children) := by
  induction seqs generalizing id with
  | nil => cases hid
  | cons s seqs ih =>
    cases id with
    | zero =>
      simp only [modify_zero_cons, flatMap_cons, Seq.children, flatMap_append,
        flatMap_nil, append_nil, append_assoc]
      exact perm_append_comm.append_left _
    | succ id =>
      simp only [modify_succ_cons, flatMap_cons, append_assoc]
      exact (ih (by simpa using hid)).append_left _

theorem emit_ascending {r : Reading} (h : ∀ (id : SeqId) s, r.seqs[id]? = some s →
      ∀ child ∈ s.children, id < child) {f : Frame} {i : Instr}
    (hi : ∀ child ∈ i.children, f.seq < child) :
    ∀ (id : SeqId) s, (r.emit f i).seqs[id]? = some s → ∀ child ∈ s.children, id < child := by
  intro id s hs child hchild
  rw [emit_seqs] at hs
  obtain ⟨t, ht, rfl⟩ := Option.map_eq_some_iff.mp hs
  split at hchild
  next heq =>
    rw [Seq.children, flatMap_append, mem_append] at hchild
    rcases hchild with hchild | hchild
    · exact h id t ht child hchild
    · exact heq ▸ hi child (by simpa using hchild)
  next => exact h id t ht child hchild

section Steps

variable {r : Reading} {top : Frame} {outer : List Frame}
  {f : Frame} {more : List Seq} {scope : Scope}

theorem Nests.emit (h : r.Nests) (hr : r.Sound) (hf : f ∈ r.frames) {i : Instr}
    (hi : i.children = []) : (r.emit f i).Nests where
  perm := by
    have hperm := modify_children (hr.seq_lt hf) i
    rw [hi, append_nil] at hperm
    have hall := ((hperm.append_right (r.frames.flatMap Frame.owned)).cons 0).trans h.perm
    simpa [Reading.emit] using hall
  ascending := emit_ascending h.ascending (by simp [hi])
  inside := h.inside
  bottom := h.bottom

theorem Nests.grow (h : r.Nests) (hempty : ∀ s ∈ more, s.instrs = []) {frames : List Frame}
    (howned : (frames.flatMap Frame.owned).Perm
      (r.frames.flatMap Frame.owned ++ List.range' r.seqs.length more.length))
    (hinside : frames.Pairwise fun inner outer => ∀ child ∈ inner.owned, outer.seq < child)
    (hbottom : ∀ f ∈ frames.getLast?, f.role = .entry) :
    (⟨r.seqs ++ more, frames⟩ : Reading).Nests where
  perm := by
    have hnone : more.flatMap Seq.children = [] := by
      refine flatMap_eq_nil_iff.mpr fun s hs => ?_
      rw [Seq.children, hempty s hs, flatMap_nil]
    rw [flatMap_append, hnone, append_nil, length_append, range_eq_range',
      ← range'_append_1, ← range_eq_range', Nat.zero_add]
    refine ((howned.append_left _).cons 0).trans ?_
    rw [← append_assoc, ← cons_append]
    exact h.perm.append_right _
  ascending := by
    intro id s hs child hchild
    rw [getElem?_append] at hs
    split at hs
    next => exact h.ascending id s hs child hchild
    next =>
      rw [Seq.children, hempty s (mem_of_getElem? hs)] at hchild
      cases hchild
  inside := hinside
  bottom := hbottom

theorem Nests.open (h : r.Nests) (hr : r.Sound) (hne : r.frames ≠ [])
    (hempty : ∀ s ∈ more, s.instrs = []) (howned : f.owned = List.range' r.seqs.length more.length) :
    (⟨r.seqs ++ more, f :: r.frames⟩ : Reading).Nests := by
  refine h.grow hempty ?_ ?_ ?_
  · rw [flatMap_cons, howned]
    exact perm_append_comm
  · refine pairwise_cons.mpr ⟨fun outer houter child hchild => ?_, h.inside⟩
    rw [howned] at hchild
    exact Nat.lt_of_lt_of_le (hr.seq_lt houter) (mem_range'_1.mp hchild).1
  · rw [getLast?_cons_of_ne_nil hne]
    exact h.bottom

theorem Nests.outer_ne_nil (h : r.Nests) (hframes : r.frames = top :: outer)
    (htop : top.role ≠ .entry) : outer ≠ [] := by
  rintro rfl
  exact htop (h.bottom top (by rw [hframes]; rfl))

/-- The innermost frame goes on as another, which may own further sequences. -/
theorem Nests.replace (h : r.Nests) (hr : r.Sound) (hframes : r.frames = top :: outer)
    (htop : top.role ≠ .entry) (hempty : ∀ s ∈ more, s.instrs = [])
    (howned : f.owned = top.owned ++ List.range' r.seqs.length more.length) :
    (⟨r.seqs ++ more, f :: outer⟩ : Reading).Nests := by
  have hinside := h.inside
  have hbottom := h.bottom
  rw [hframes] at hinside hbottom
  have hne := h.outer_ne_nil hframes htop
  refine h.grow hempty ?_ ?_ ?_
  · rw [hframes, flatMap_cons, flatMap_cons, howned, append_assoc, append_assoc]
    exact perm_append_comm.append_left _
  · obtain ⟨htopInside, houter⟩ := pairwise_cons.mp hinside
    refine pairwise_cons.mpr ⟨fun around haround child hchild => ?_, houter⟩
    rw [howned] at hchild
    rcases mem_append.mp hchild with hchild | hchild
    · exact htopInside around haround child hchild
    · refine Nat.lt_of_lt_of_le (hr.bounded around.seq ?_) (mem_range'_1.mp hchild).1
      exact mem_append_left _ (mem_map_of_mem (by rw [hframes]; simp [haround]))
  · rw [getLast?_cons_of_ne_nil hne] at hbottom ⊢
    exact hbottom

/-- A construct that closes becomes an instruction, which contains what it owned. -/
theorem Nests.close (h : r.Nests) (hr : r.Sound) (hframes : r.frames = top :: outer)
    {construct : Option Instr} (howned : top.owned = (construct.map Instr.children).getD [])
    (htop : construct.isSome → top.role ≠ .entry) : (r.close outer construct).Nests := by
  have hperm := h.perm
  have hinside := h.inside
  have hbottom := h.bottom
  rw [hframes] at hperm hinside hbottom
  obtain ⟨htopInside, houter⟩ := pairwise_cons.mp hinside
  rw [flatMap_cons, howned] at hperm
  have hlast : ∀ f ∈ outer.getLast?, f.role = .entry := by
    cases outer with
    | nil => exact nofun
    | cons around rest => rwa [getLast?_cons_of_ne_nil (by simp)] at hbottom
  rw [close_eq]
  cases construct with
  | none => exact ⟨hperm, h.ascending, houter, hlast⟩
  | some i =>
    cases outer with
    | nil => exact absurd rfl (h.outer_ne_nil hframes (htop rfl))
    | cons around rest =>
      have hchildren : ∀ child ∈ i.children, around.seq < child := fun child hchild =>
        htopInside around mem_cons_self child (by rw [howned]; exact hchild)
      have hlt : around.seq < r.seqs.length := hr.seq_lt (by simp [hframes])
      refine ⟨?_, emit_ascending h.ascending hchildren, houter, hlast⟩
      have hall := ((modify_children hlt i).append_right
        ((around :: rest).flatMap Frame.owned)).cons 0
      rw [append_assoc] at hall
      have hlength : (r.seqs.modify around.seq fun s => { s with instrs := s.instrs ++ [i] }).length =
          r.seqs.length := length_modify ..
      simp only [Reading.emit, hlength]
      exact hall.trans hperm

/-- A step keeps sequences nested. -/
theorem Step.nests {next : Reading} {i : Wire.Instr} (h : Step scope r top outer i next)
    (hframes : r.frames = top :: outer) (hr : r.Sound) (hn : r.Nests) : next.Nests := by
  have hne : r.frames ≠ [] := by simp [hframes]
  cases h with
  | plain hplain => exact hn.emit hr (by simp [hframes]) hplain.children
  | block => exact hn.open hr hne (by simp) rfl
  | loop => exact hn.open hr hne (by simp) rfl
  | ifElse =>
    unfold openSeq
    rw [append_assoc]
    exact hn.open hr hne (by simp) rfl
  | orElse _ hrole =>
    rw [← append_nil r.seqs]
    exact hn.replace hr hframes (by simp [hrole]) (fun _ hs => absurd hs not_mem_nil)
      (by simp [Frame.owned, Frame.construct?, Instr.children, hrole])
  | tryCatch => exact hn.open hr hne (by simp) rfl
  | handler _ hhandles =>
    refine hn.replace hr hframes ?_ (by simp) ?_
    · cases hhandles with
      | tried hrole => simp [hrole]
      | handler hrole => simp [hrole]
    · cases hhandles with
      | tried hrole => simp [Frame.owned, Frame.construct?, Instr.children, hrole]
      | handler hrole => simp [Frame.owned, Frame.construct?, Instr.children, hrole]
  | delegate hrole =>
    exact hn.close hr hframes (by simp [Frame.owned, Frame.construct?, hrole, Instr.children])
      (by simp [hrole])
  | tryTable => exact hn.open hr hne (by simp) rfl
  | done =>
    refine hn.close hr hframes rfl fun hsome hentry => ?_
    simp [Frame.construct?, hentry] at hsome

theorem run_nested {is : List Wire.Instr} {final : List Seq} (hr : r.Sound) (hn : r.Nests)
    (h : run scope r is = .ok final) : Nested final := by
  induction is generalizing r with
  | nil =>
    obtain ⟨hframes, rfl⟩ := run_nil_iff.mp h
    have hperm := hn.perm
    rw [hframes, flatMap_nil, append_nil] at hperm
    exact ⟨hperm, hn.ascending⟩
  | cons i is ih =>
    obtain ⟨top, outer, next, hframes, hstep, hrun⟩ := run_cons_iff.mp h
    exact ih (hstep.sound hframes hr) (hstep.nests hframes hr hn) hrun

end Steps

theorem start_nests (type : TypeId) :
    (⟨[⟨.multi type, []⟩], [⟨0, .entry⟩]⟩ : Reading).Nests where
  perm := Perm.refl [0]
  ascending := by
    intro id s hs child hchild
    rw [mem_singleton.mp (mem_of_getElem? hs)] at hchild
    cases hchild
  inside := pairwise_singleton _ _
  bottom := by
    intro f hf
    cases hf
    rfl

end Reading

theorem Body.seqsOfCode_nested {scope : Scope} {type : TypeId} {code : Bytes} {seqs : List Seq}
    (h : Body.seqsOfCode scope type code = .ok seqs) : Nested seqs := by
  obtain ⟨is, -, hrun⟩ := Body.seqsOfCode_eq_ok_iff.mp h
  exact Reading.run_nested (Reading.start_sound type) (Reading.start_nests type) hrun

end HostCatch
