import HostCatch.Proofs.Program.Bodies
import HostCatch.Proofs.Program.Paths
import HostCatch.Proofs.Program.Progress

namespace HostCatch

open List

/-- An instruction of code that goes on with or ends a construct; every other one stays an instruction.
-/
def Wire.Instr.delimits (i : Wire.Instr) : Bool :=
  i.op ∈ [0x05, 0x07, 0x0B, 0x18, 0x19]

/-- What an instruction of code stands for where these sequences enclose it, from the innermost on. -/
inductive Scope.Reads (scope : Scope) (labels : List SeqId) : Wire.Instr → Instr → Prop
  | plain {frames i j} : frames.map Frame.seq = labels → scope.Plain frames i j →
      Reads scope labels i j
  | block (t seq) : Reads scope labels ⟨0x02, .block t⟩ (.block seq)
  | loop (t seq) : Reads scope labels ⟨0x03, .block t⟩ (.loop seq)
  | ifElse (t consequent alternative) :
      Reads scope labels ⟨0x04, .block t⟩ (.ifElse consequent alternative)
  | tryCatch (t seq handlers delegate) :
      Reads scope labels ⟨0x06, .block t⟩ (.tryCatch seq handlers delegate)
  | tryTable {frames t catches clauses} (seq) : frames.map Frame.seq = labels →
      catches.mapM (scope.clause frames) = .ok clauses →
      Reads scope labels ⟨0x1F, .tryTable t catches⟩ (.tryTable seq clauses)

namespace Scope

variable {scope : Scope} {frames : List Frame}

theorem label_mem {depth : UInt32} {target : SeqId} (h : scope.label frames depth = .ok target) :
    target ∈ frames.map Frame.seq := by
  unfold label at h
  split at h
  next f hf =>
    cases h
    exact mem_map_of_mem (mem_of_getElem? hf)
  next => cases h

theorem labels_mem {depths : List UInt32} {targets : List SeqId}
    (h : depths.mapM (scope.label frames) = .ok targets) :
    ∀ target ∈ targets, target ∈ frames.map Frame.seq := by
  intro target htarget
  obtain ⟨depth, -, hdepth⟩ := forall₂_mem_right (mapM_eq_ok_iff.mp h) htarget
  exact label_mem hdepth

theorem clause_label {entry : Wire.CatchClause} {c : Clause} (h : scope.clause frames entry = .ok c) :
    scope.label frames entry.label = .ok c.label := by
  obtain ⟨target, htarget, h⟩ := of_bind h
  dsimp only at h
  split at h
  all_goals
    obtain ⟨tag, -, h⟩ := of_bind h
    cases h
    exact htarget

theorem clause_mem {catches : List Wire.CatchClause} {clauses : List Clause}
    (h : catches.mapM (scope.clause frames) = .ok clauses) :
    ∀ c ∈ clauses, c.label ∈ frames.map Frame.seq := by
  intro c hc
  obtain ⟨entry, -, hentry⟩ := forall₂_mem_right (mapM_eq_ok_iff.mp h) hc
  exact label_mem (clause_label hentry)

theorem Reads.targets {labels : List SeqId} {i : Wire.Instr} {j : Instr}
    (h : scope.Reads labels i j) : ∀ target ∈ j.targets, target ∈ labels := by
  cases h with
  | plain hlabels hplain =>
    subst hlabels
    cases hplain with
    | br hlabel => exact forall_mem_singleton.mpr (label_mem hlabel)
    | brIf hlabel => exact forall_mem_singleton.mpr (label_mem hlabel)
    | brTable hlabels hlabel =>
      exact forall_mem_append.mpr ⟨labels_mem hlabels, forall_mem_singleton.mpr (label_mem hlabel)⟩
    | _ => exact fun target htarget => absurd htarget not_mem_nil
  | tryTable _ hlabels hclauses =>
    subst hlabels
    exact forall_mem_map.mpr (clause_mem hclauses)
  | _ => exact fun target htarget => absurd htarget not_mem_nil

end Scope

theorem Wire.Instr.Spelled.known {i : Instr} (h : i.Spelled) (hdelimits : i.delimits = true) : i.Known := by
  obtain ⟨op, imm⟩ := i
  have hop : op ∈ [0x05, 0x07, 0x0B, 0x18, 0x19] := of_decide_eq_true hdelimits
  simp only [mem_cons, not_mem_nil, or_false] at hop
  rcases hop with rfl | rfl | rfl | rfl | rfl
  · exact .orElse imm
  · obtain ⟨layout, c, c', hlayout, himm⟩ := h.imm
    cases (rfl : Layout.ofOpcode? 0x07 = some .throw).symm.trans hlayout
    obtain ⟨tag, -, rfl⟩ := Reader.map_eq_ok_iff.mp himm
    exact .catch tag
  · exact .done imm
  · obtain ⟨layout, c, c', hlayout, himm⟩ := h.imm
    cases (rfl : Layout.ofOpcode? 0x18 = some .branch).symm.trans hlayout
    obtain ⟨depth, -, rfl⟩ := Reader.map_eq_ok_iff.mp himm
    exact .delegate depth
  · exact .catchAll imm

theorem Scope.Plain.delimits {scope : Scope} {frames : List Frame} {i : Wire.Instr} {j : Instr}
    (h : scope.Plain frames i j) (hspelled : i.Spelled) : i.delimits = false := by
  cases h with
  | raw hraw => exact Bool.eq_false_iff.mpr fun hdelimits => hraw (hspelled.known hdelimits)
  | _ => rfl

/-- Open frames, innermost first: the last is the entry, and every other one is at a sequence of its
construct, before no other than the alternative that it may still go on with. -/
inductive Frame.Stack : List Frame → Prop
  | entry : Stack [⟨0, .entry⟩]
  | inner {f : Frame} {outer : List Frame} (before : List SeqId) :
      f.owned = before ++ f.seq :: f.pending?.toList → Stack outer → Stack (f :: outer)

theorem Frame.Stack.outer {top : Frame} {outer : List Frame} (h : Frame.Stack (top :: outer))
    (hrole : top.role ≠ .entry) : Frame.Stack outer := by
  cases h with
  | entry => exact absurd rfl hrole
  | inner _ _ houter => exact houter

theorem Frame.Handles.role_ne {f : Frame} {tried : SeqId} {before : List Handler}
    (h : f.Handles tried before) : f.role ≠ .entry := by
  cases h with
  | tried hrole | handler hrole => simp [hrole]

/-- The construct that a frame is a part of, once it is complete, with the sequences behind the one
of the frame. -/
def Frame.Becomes (f : Frame) (i : Instr) (later : List SeqId) : Prop :=
  match f.role with
  | .entry => False
  | .sole construct => i = construct ∧ later = []
  | .consequent alternative => i = .ifElse f.seq alternative ∧ later = [alternative]
  | .alternative consequent => i = .ifElse consequent f.seq ∧ later = []
  | .tried => ∃ handlers delegate,
      i = .tryCatch f.seq handlers delegate ∧ later = handlers.map Handler.seq
  | .handler tried before => ∃ more,
      i = .tryCatch tried (before ++ more) none ∧ later = more.map Handler.seq

theorem Frame.Becomes.mem_children {f : Frame} {before : List SeqId}
    (hf : f.owned = before ++ f.seq :: f.pending?.toList) {i : Instr} {later : List SeqId}
    (h : f.Becomes i later) : f.seq ∈ i.children := by
  have howned : f.seq ∈ f.owned := by
    rw [hf]
    simp
  unfold Frame.owned Frame.construct? at howned
  unfold Frame.Becomes at h
  split at h
  next => exact h.elim
  next construct hrole =>
    obtain ⟨rfl, -⟩ := h
    rwa [hrole] at howned
  next =>
    obtain ⟨rfl, -⟩ := h
    exact mem_cons_self
  next =>
    obtain ⟨rfl, -⟩ := h
    exact mem_cons_of_mem _ mem_cons_self
  next =>
    obtain ⟨handlers, delegate, rfl, -⟩ := h
    exact mem_cons_self
  next tried handlers hrole =>
    obtain ⟨more, rfl, -⟩ := h
    rw [hrole] at howned
    simp only [Option.map_some, Option.getD_some, Instr.children, map_append, mem_cons,
      mem_append] at howned ⊢
    tauto

theorem Frame.becomes_of_construct? {f : Frame} {i : Instr} (h : f.construct? = some i) :
    f.Becomes i f.pending?.toList := by
  unfold Frame.construct? at h
  unfold Frame.Becomes Frame.pending?
  split at h
  next => cases h
  all_goals
    next hrole =>
      cases h
      rw [hrole]
      simp

namespace Reading

variable {id : SeqId} {final : List Seq} {frames : List Frame}
  {r next : Reading} {f : Frame} {scope : Scope} {outer : List Frame}

/-- How many instructions a sequence has so far. -/
def filled (r : Reading) (id : SeqId) : Nat :=
  (r.seqs[id]?.map fun s => s.instrs.length).getD 0

/-- Sequences may get further instructions, behind those that they have. -/
def Precedes (r : Reading) (final : List Seq) : Prop :=
  ∀ (id : SeqId) s, r.seqs[id]? = some s → ∃ t, final[id]? = some t ∧ s.instrs <+: t.instrs

theorem filled_of_seq {s : Seq} (h : r.seqs[id]? = some s) : r.filled id = s.instrs.length := by
  rw [filled, h]
  rfl

theorem filled_emit_self (hf : f.seq < r.seqs.length) (i : Instr) :
    (r.emit f i).filled f.seq = r.filled f.seq + 1 := by
  simp [filled, emit_seqs, getElem?_eq_getElem hf]

theorem filled_emit_of_ne (r : Reading) (h : f.seq ≠ id) (i : Instr) :
    (r.emit f i).filled id = r.filled id := by
  simp [filled, emit_seqs, h]

theorem filled_append (h : id < r.seqs.length) (more : List Seq) (frames : List Frame) :
    (⟨r.seqs ++ more, frames⟩ : Reading).filled id = r.filled id := by
  simp [filled, getElem?_append_left h]

theorem emit_precedes {i : Instr} (h : (r.emit f i).Precedes final) : r.Precedes final := by
  intro id s hs
  obtain ⟨t, ht, hprefix⟩ := h id _ (by rw [emit_seqs, hs]; rfl)
  refine ⟨t, ht, List.IsPrefix.trans ?_ hprefix⟩
  split
  next => exact prefix_append _ _
  next => exact prefix_refl _

theorem append_precedes {more : List Seq} (h : (⟨r.seqs ++ more, frames⟩ : Reading).Precedes final) :
    r.Precedes final := by
  intro id s hs
  refine h id s ?_
  rw [getElem?_append_left (lt_of_getElem? hs)]
  exact hs

theorem Step.precedes {top : Frame} {i : Wire.Instr} (h : Step scope r top outer i next)
    (hnext : next.Precedes final) : r.Precedes final := by
  have hclose : ∀ construct, (r.close outer construct).Precedes final → r.Precedes final := by
    intro construct hnext
    rw [close_eq] at hnext
    split at hnext
    next => exact emit_precedes (r := { r with frames := _ }) hnext
    next => exact hnext
  cases h with
  | plain => exact emit_precedes hnext
  | block | loop | tryCatch | tryTable => exact append_precedes hnext
  | ifElse => exact append_precedes (append_precedes (r := r.openSeq _ _) hnext)
  | orElse => exact hnext
  | handler => exact append_precedes (r := { r with frames := outer }) hnext
  | delegate | done => exact hclose _ hnext

theorem run_precedes {is : List Wire.Instr} (h : run scope r is = .ok final) :
    r.Precedes final := by
  induction is generalizing r with
  | nil =>
    obtain ⟨-, rfl⟩ := run_nil_iff.mp h
    exact fun id s hs => ⟨s, hs, prefix_refl _⟩
  | cons i is ih =>
    obtain ⟨top, outer, next, -, hstep, hrun⟩ := run_cons_iff.mp h
    exact hstep.precedes (ih hrun)

theorem instr?_of_emit (hf : f.seq < r.seqs.length) {i : Instr} {b : Body}
    (h : (r.emit f i).Precedes b.seqs) : b.instr? f.seq (r.filled f.seq) = some i := by
  have hs := getElem?_eq_getElem hf
  obtain ⟨t, ht, hprefix⟩ := h f.seq { r.seqs[f.seq] with instrs := r.seqs[f.seq].instrs ++ [i] }
    (by simp [emit_seqs, hs])
  obtain ⟨more, hmore⟩ := hprefix
  rw [Body.instr?_of_seq ht, filled_of_seq hs, ← hmore]
  simp

theorem onward_of_closed {b : Body} (hgrows : ({ r with frames } : Reading).Grows b.seqs)
    (hid : id < r.seqs.length) (hclosed : id ∉ openSeqs { r with frames }) :
    b.onward id (r.filled id) = [] := by
  have hs := getElem?_eq_getElem hid
  obtain ⟨t, ht, -, heq⟩ := hgrows id _ hs
  obtain rfl := heq hclosed
  refine Body.onward_of_none ?_
  rw [Body.instr?_of_seq ht, filled_of_seq hs]
  simp

/-- A step keeps the open frames a stack. -/
theorem Step.stack {top : Frame} {i : Wire.Instr} (h : Step scope r top outer i next)
    (hframes : r.frames = top :: outer) (hr : Frame.Stack r.frames) :
    next.frames = [] ∨ Frame.Stack next.frames := by
  have hclose : ∀ construct, (r.close outer construct).frames = [] ∨
      Frame.Stack (r.close outer construct).frames := by
    intro construct
    rw [close_frames]
    rw [hframes] at hr
    cases hr with
    | entry => exact .inl rfl
    | inner _ _ houter => exact .inr houter
  cases h with
  | plain => exact .inr hr
  | block | loop | tryCatch | tryTable | ifElse => exact .inr (.inner [] rfl hr)
  | orElse _ hrole =>
    exact .inr (.inner [top.seq] rfl ((hframes ▸ hr).outer (by simp [hrole])))
  | @handler _ tag tried before _ hhandles =>
    refine .inr (.inner (tried :: before.map Handler.seq) ?_ ((hframes ▸ hr).outer hhandles.role_ne))
    simp [Frame.owned, Frame.construct?, Instr.children, Frame.pending?]
  | delegate | done => exact hclose _

end Reading

namespace Body

/-- What the walk of a body has still to meet while frames are open: for each of them the rest of its
sequence, from the first instruction or the second one that it will get, and then the sequences behind
that one in its construct. -/
inductive Remains (b : Body) (r : Reading) : Nat → List Frame → List Visit → Prop
  | none (skip : Nat) : Remains b r skip [] []
  | entry (skip : Nat) (f : Frame) :
      Remains b r skip [f] (b.onward f.seq (r.filled f.seq + skip))
  | inner {f around : Frame} {outer : List Frame} {i : Instr} {later : List SeqId}
      {visits : List Visit} (skip : Nat) : b.instr? around.seq (r.filled around.seq) = some i →
      f.Becomes i later → Remains b r 1 (around :: outer) visits →
      Remains b r skip (f :: around :: outer)
        (b.onward f.seq (r.filled f.seq + skip) ++ (later.flatMap b.inside ++ visits))

variable {b : Body} {r r' : Reading} {f : Frame} {outer : List Frame} {visits : List Visit}

/-- What remains depends on how far the sequences of the frames are filled. -/
theorem Remains.transfer {skip : Nat} (h : b.Remains r skip (f :: outer) visits) (skip' : Nat)
    (hf : r'.filled f.seq + skip' = r.filled f.seq + skip)
    (houter : ∀ g ∈ outer, r'.filled g.seq = r.filled g.seq) :
    b.Remains r' skip' (f :: outer) visits := by
  induction outer generalizing f skip skip' visits with
  | nil =>
    cases h with
    | entry =>
      rw [← hf]
      exact .entry _ _
  | cons around outer ih =>
    obtain ⟨haround, hrest⟩ := forall_mem_cons.mp houter
    cases h with
    | inner _ hi hbecomes h =>
      rw [← hf]
      exact .inner _ (by rw [haround, hi]) hbecomes (ih h 1 (by rw [haround]) hrest)

theorem Remains.prepend (h : b.Remains r 1 (f :: outer) visits) {i : Instr}
    (hi : b.instr? f.seq (r.filled f.seq) = some i) : b.Remains r 0 (f :: outer)
      (⟨f.seq, r.filled f.seq, i⟩ :: (i.children.flatMap b.inside ++ visits)) := by
  have honward := onward_of_some hi
  cases h with
  | entry =>
    rw [← honward]
    exact .entry 0 f
  | inner _ hj hbecomes h =>
    rw [← append_assoc, ← cons_append, ← honward]
    exact .inner 0 hj hbecomes h

theorem Remains.path (hentry : b.entry = 0) {skip : Nat} (hstack : Frame.Stack (f :: outer))
    (h : b.Remains r skip (f :: outer) visits) : b.Path f.seq (f.seq :: outer.map Frame.seq) := by
  induction outer generalizing f skip visits with
  | nil =>
    cases hstack with
    | entry => exact hentry ▸ Path.entry
    | inner _ _ hstack => cases hstack
  | cons around outer ih =>
    cases hstack with
    | inner before howned hstack =>
      cases h with
      | inner _ hi hbecomes h =>
        exact (ih hstack h).nested hi (hbecomes.mem_children howned)

variable {next : Reading} {top around : Frame}

/-- A construct is met when it opens, and then what its first sequence and the others hold. -/
theorem Remains.opened (hb : Nested b.seqs) {type : BlockType} {more : List Seq}
    {frames : List Frame} (hseq : f.seq = r.seqs.length)
    (hfirst : ∀ j later, f.Becomes j later → j.children = f.seq :: later)
    (hbounded : ∀ g ∈ top :: outer, g.seq < r.seqs.length) (hf : f.seq < b.seqs.length)
    (h : b.Remains ⟨r.seqs ++ ⟨type, []⟩ :: more, frames⟩ 0 (f :: top :: outer) visits) :
    ∃ v later, v.seq = top.seq ∧ f.Becomes v.instr later ∧
      b.Remains r 0 (top :: outer) (v :: visits) := by
  have hempty : (⟨r.seqs ++ ⟨type, []⟩ :: more, frames⟩ : Reading).filled f.seq = 0 := by
    rw [hseq, Reading.filled_of_seq (s := ⟨type, []⟩) (by simp)]
    rfl
  have hsame : ∀ g ∈ top :: outer,
      r.filled g.seq = (⟨r.seqs ++ ⟨type, []⟩ :: more, frames⟩ : Reading).filled g.seq :=
    fun g hg => (Reading.filled_append (hbounded g hg) _ _).symm
  obtain ⟨htop, houter⟩ := forall_mem_cons.mp hsame
  cases h with
  | @inner _ _ _ j later visits _ hj hbecomes h =>
    rw [← htop] at hj
    have hprepend := (h.transfer 1 (by rw [htop]) houter).prepend hj
    rw [hfirst j later hbecomes, flatMap_cons, inside_eq_onward hb hf, append_assoc] at hprepend
    rw [hempty]
    exact ⟨_, later, rfl, hbecomes, hprepend⟩

/-- The walk goes on from one sequence of a construct to the next. -/
theorem Remains.replaced (hb : Nested b.seqs) (hstack : Frame.Stack outer)
    (hreplace : ∀ j later, f.Becomes j later → top.Becomes j (f.seq :: later))
    (hend : b.onward top.seq (r.filled top.seq) = []) (hempty : next.filled f.seq = 0)
    (hsame : ∀ g ∈ outer, r.filled g.seq = next.filled g.seq) (hf : f.seq < b.seqs.length)
    (h : b.Remains next 0 (f :: outer) visits) : b.Remains r 0 (top :: outer) visits := by
  cases h with
  | entry => cases hstack
  | @inner _ around outer j later visits _ hj hbecomes h =>
    obtain ⟨haround, hrest⟩ := forall_mem_cons.mp hsame
    rw [← haround] at hj
    have hall := Remains.inner 0 hj (hreplace j later hbecomes) (h.transfer 1 (by rw [haround]) hrest)
    rw [Nat.add_zero, hend, nil_append, flatMap_cons, inside_eq_onward hb hf, append_assoc] at hall
    rw [hempty]
    exact hall

theorem Remains.closed {j : Instr} {later : List SeqId} (hbecomes : top.Becomes j later)
    (hlater : later.flatMap b.inside = []) (hend : b.onward top.seq (r.filled top.seq) = [])
    (haround : around.seq < r.seqs.length) (hne : ∀ g ∈ outer, around.seq ≠ g.seq)
    (hprecedes : (r.emit around j).Precedes b.seqs)
    (h : b.Remains (r.emit around j) 0 (around :: outer) visits) :
    b.Remains r 0 (top :: around :: outer) visits := by
  have hi := Reading.instr?_of_emit haround hprecedes
  have hrest : b.Remains r 1 (around :: outer) visits :=
    h.transfer 1 (by rw [Reading.filled_emit_self haround])
      fun g hg => (Reading.filled_emit_of_ne r (hne g hg) j).symm
  have hall := Remains.inner 0 hi hbecomes hrest
  rwa [Nat.add_zero, hend, hlater] at hall

end Body

namespace Reading

section Steps

variable {scope : Scope} {r next : Reading} {top : Frame} {outer : List Frame} {b : Body}
variable {visits : List Visit} (hframes : r.frames = top :: outer) (hr : r.Sound)

include hframes hr

theorem emit_remains {j : Instr} (hj : j.children = []) (hprecedes : (r.emit top j).Precedes b.seqs)
    (hrest : b.Remains (r.emit top j) 0 r.frames visits) :
    b.Remains r 0 r.frames (⟨top.seq, r.filled top.seq, j⟩ :: visits) := by
  have htop : top.seq < r.seqs.length := hr.seq_lt (by simp [hframes])
  have hnodup := (nodup_append.mp hr.nodup).1
  rw [hframes] at hnodup hrest ⊢
  have hne : ∀ g ∈ outer, top.seq ≠ g.seq := fun g hg heq =>
    (nodup_cons.mp hnodup).1 (heq ▸ mem_map_of_mem hg)
  have hafter : b.Remains r 1 (top :: outer) visits :=
    hrest.transfer 1 (by rw [filled_emit_self htop]) fun g hg =>
      (filled_emit_of_ne r (hne g hg) j).symm
  have hall := hafter.prepend (instr?_of_emit htop hprecedes)
  rwa [hj, flatMap_nil, nil_append] at hall

theorem open_remains (hb : Nested b.seqs) {type : BlockType} {more : List Seq} {f : Frame}
    (hseq : f.seq = r.seqs.length)
    (hfirst : ∀ j later, f.Becomes j later → j.children = f.seq :: later)
    (hgrows : (⟨r.seqs ++ ⟨type, []⟩ :: more, f :: r.frames⟩ : Reading).Grows b.seqs)
    (hrest : b.Remains ⟨r.seqs ++ ⟨type, []⟩ :: more, f :: r.frames⟩ 0 (f :: r.frames) visits) :
    ∃ v later, v.seq = top.seq ∧ f.Becomes v.instr later ∧ b.Remains r 0 r.frames (v :: visits) := by
  have hlength := hgrows.length_le
  rw [length_append, length_cons] at hlength
  have hlt : r.seqs.length < b.seqs.length := by omega
  rw [hframes] at hrest ⊢
  exact Body.Remains.opened hb hseq hfirst (fun g hg => hr.seq_lt (hframes ▸ hg)) (hseq ▸ hlt) hrest

theorem sole_remains (hb : Nested b.seqs) {type : BlockType} {construct : Instr}
    (hchildren : construct.children = [r.seqs.length])
    (hgrows : (r.openSeq type fun _ => .sole construct).Grows b.seqs)
    (hrest : b.Remains (r.openSeq type fun _ => .sole construct) 0
      (⟨r.seqs.length, .sole construct⟩ :: r.frames) visits) :
    ∃ index, b.Remains r 0 r.frames (⟨top.seq, index, construct⟩ :: visits) := by
  have hfirst : ∀ j later, (⟨r.seqs.length, .sole construct⟩ : Frame).Becomes j later →
      j.children = r.seqs.length :: later := by
    rintro _ _ ⟨rfl, rfl⟩
    exact hchildren
  obtain ⟨⟨_, index, j⟩, later, rfl, ⟨rfl, -⟩, hall⟩ :=
    open_remains hframes hr hb rfl hfirst hgrows hrest
  exact ⟨index, hall⟩

theorem orElse_remains (hb : Nested b.seqs) (hstack : Frame.Stack r.frames) {alternative : SeqId}
    (hrole : top.role = .consequent alternative)
    (hgrows : ({ r with frames := ⟨alternative, .alternative top.seq⟩ :: outer } : Reading).Grows b.seqs)
    (hrest : b.Remains { r with frames := ⟨alternative, .alternative top.seq⟩ :: outer } 0
      (⟨alternative, .alternative top.seq⟩ :: outer) visits) : b.Remains r 0 r.frames visits := by
  have hpending : alternative ∈ r.frames.filterMap Frame.pending? := by
    simp [hframes, Frame.pending?, hrole]
  have hlt := hr.bounded alternative (mem_append_right _ hpending)
  obtain ⟨type, htype⟩ := hr.pending alternative hpending
  have hend := onward_of_closed hgrows (hr.seq_lt (by simp [hframes])) (hr.orElse_closed hframes hrole)
  rw [hframes] at hstack ⊢
  refine Body.Remains.replaced hb (hstack.outer (by simp [hrole])) ?_ hend ?_ ?_ ?_ hrest
  · rintro j later ⟨rfl, rfl⟩
    rw [Frame.Becomes, hrole]
    exact ⟨rfl, rfl⟩
  · exact filled_of_seq htype
  · exact fun _ _ => rfl
  · exact Nat.lt_of_lt_of_le hlt hgrows.length_le

theorem handler_remains (hb : Nested b.seqs) (hstack : Frame.Stack r.frames) {tried : SeqId}
    {before : List Handler} (hhandles : top.Handles tried before) {tag : Option TagId}
    (hgrows : (r.openHandler outer tried before tag).Grows b.seqs)
    (hrest : b.Remains (r.openHandler outer tried before tag) 0
      (r.openHandler outer tried before tag).frames visits) : b.Remains r 0 r.frames visits := by
  have hclosed : ({ r with frames := outer } : Reading).Grows b.seqs := openSeq_grows rfl hgrows
  have hend := onward_of_closed hclosed (hr.seq_lt (by simp [hframes])) (hr.closed hframes)
  have hlength : r.seqs.length + 1 ≤ b.seqs.length := by
    simpa [openHandler, openSeq] using hgrows.length_le
  have hsame : ∀ g ∈ outer, r.filled g.seq = (r.openHandler outer tried before tag).filled g.seq :=
    fun g hg => (filled_append (hr.seq_lt (by simp [hframes, hg])) _ _).symm
  rw [hframes] at hstack ⊢
  refine Body.Remains.replaced hb (hstack.outer hhandles.role_ne) ?_ hend ?_ hsame ?_ hrest
  · rintro j later ⟨more, rfl, rfl⟩
    rw [Frame.Becomes]
    cases hhandles with
    | tried hrole =>
      rw [hrole]
      exact ⟨_, none, rfl, rfl⟩
    | handler hrole =>
      rw [hrole]
      exact ⟨⟨tag, r.seqs.length⟩ :: more, by simp, rfl⟩
  · exact filled_of_seq (openSeq_new { r with frames := outer } _ _)
  · exact hlength

/-- At the end of a construct its last sequence has nothing left. -/
theorem close_remains (hstack : Frame.Stack outer) {j : Instr} {later : List SeqId}
    (hbecomes : top.Becomes j later) (hlater : later.flatMap b.inside = [])
    (hgrows : (r.close outer (some j)).Grows b.seqs)
    (hprecedes : (r.close outer (some j)).Precedes b.seqs)
    (hrest : b.Remains (r.close outer (some j)) 0 outer visits) :
    b.Remains r 0 (top :: outer) visits := by
  have hend := onward_of_closed (close_grows_inner hgrows) (hr.seq_lt (by simp [hframes]))
    (hr.closed hframes)
  have hnodup := (nodup_append.mp hr.nodup).1
  rw [hframes, map_cons] at hnodup
  cases outer with
  | nil => cases hstack
  | cons around outer =>
    have hne : ∀ g ∈ outer, around.seq ≠ g.seq := fun g hg heq =>
      (nodup_cons.mp (nodup_cons.mp hnodup).2).1 (heq ▸ mem_map_of_mem hg)
    exact Body.Remains.closed hbecomes hlater hend (hr.seq_lt (by simp [hframes])) hne hprecedes
      (hrest.transfer 0 rfl fun _ _ => rfl)

/-- An `end` closes the construct, or the body. An alternative that was still to come stays empty. -/
theorem done_remains (hb : Nested b.seqs) (hstack : Frame.Stack r.frames)
    (hgrows : (r.close outer top.construct?).Grows b.seqs)
    (hprecedes : (r.close outer top.construct?).Precedes b.seqs)
    (hrest : b.Remains (r.close outer top.construct?) 0 outer visits) :
    b.Remains r 0 r.frames visits := by
  rw [hframes] at hstack ⊢
  cases hconstruct : top.construct? with
  | none =>
    rw [hconstruct] at hgrows
    have hend := onward_of_closed (close_grows_inner hgrows) (hr.seq_lt (by simp [hframes]))
      (hr.closed hframes)
    cases hstack with
    | entry =>
      cases hrest
      rw [← hend]
      exact .entry 0 _
    | inner before howned => simp [Frame.owned, hconstruct] at howned
  | some j =>
    have hrole : top.role ≠ .entry := by
      intro hrole
      simp [Frame.construct?, hrole] at hconstruct
    rw [hconstruct] at hgrows hprecedes hrest
    refine close_remains hframes hr (hstack.outer hrole) (Frame.becomes_of_construct? hconstruct) ?_
      hgrows hprecedes hrest
    refine flatMap_eq_nil_iff.mpr fun id hid => ?_
    have hpending : top.pending? = some id := Option.mem_toList.mp hid
    have hmem : id ∈ r.frames.filterMap Frame.pending? := by
      rw [hframes, filterMap_cons, hpending]
      exact mem_cons_self
    have hlt := hr.bounded id (mem_append_right _ hmem)
    obtain ⟨type, htype⟩ := hr.pending id hmem
    have hclosed := onward_of_closed (close_grows_inner hgrows) hlt (hr.pending_closed hframes hpending)
    rw [filled_of_seq htype] at hclosed
    rw [Body.inside_eq_onward hb (Nat.lt_of_lt_of_le hlt (close_grows_inner hgrows).length_le)]
    exact hclosed

/-- One instruction of code is the next that the walk meets, unless it is a delimiter. -/
theorem Step.remains (hb : Nested b.seqs) {i : Wire.Instr} (h : Step scope r top outer i next)
    (hspelled : i.Spelled) (hstack : Frame.Stack r.frames) (hgrows : next.Grows b.seqs)
    (hprecedes : next.Precedes b.seqs) (hrest : b.Remains next 0 next.frames visits) :
    (i.delimits = true ∧ b.Remains r 0 r.frames visits) ∨
      ∃ v, i.delimits = false ∧ v.seq = top.seq ∧
        scope.Reads (r.frames.map Frame.seq) i v.instr ∧ b.Remains r 0 r.frames (v :: visits) := by
  cases h with
  | plain hplain =>
    have hall := emit_remains hframes hr hplain.children hprecedes hrest
    exact .inr ⟨_, hplain.delimits hspelled, rfl, .plain rfl hplain, hall⟩
  | block =>
    obtain ⟨index, hall⟩ := sole_remains hframes hr hb rfl hgrows hrest
    exact .inr ⟨_, rfl, rfl, .block _ _, hall⟩
  | loop =>
    obtain ⟨index, hall⟩ := sole_remains hframes hr hb rfl hgrows hrest
    exact .inr ⟨_, rfl, rfl, .loop _ _, hall⟩
  | tryTable _ hclauses =>
    obtain ⟨index, hall⟩ := sole_remains hframes hr hb rfl hgrows hrest
    exact .inr ⟨_, rfl, rfl, .tryTable _ rfl hclauses, hall⟩
  | tryCatch =>
    obtain ⟨⟨_, index, j⟩, later, rfl, ⟨handlers, delegate, rfl, -⟩, hall⟩ :=
      open_remains hframes hr hb rfl
        (fun j later h => by obtain ⟨handlers, delegate, rfl, rfl⟩ := h; rfl) hgrows hrest
    exact .inr ⟨_, rfl, rfl, .tryCatch _ _ _ _, hall⟩
  | ifElse =>
    unfold openSeq at hgrows hrest
    dsimp only at hgrows hrest
    rw [append_assoc] at hgrows hrest
    obtain ⟨⟨_, index, j⟩, later, rfl, ⟨rfl, -⟩, hall⟩ := open_remains hframes hr hb rfl
      (fun j later h => by obtain ⟨rfl, rfl⟩ := h; rfl) hgrows hrest
    exact .inr ⟨_, rfl, rfl, .ifElse _ _ _, hall⟩
  | orElse _ hrole => exact .inl ⟨rfl, orElse_remains hframes hr hb hstack hrole hgrows hrest⟩
  | handler hcatches hhandles =>
    have hdelimits : i.delimits = true := by cases hcatches <;> rfl
    exact .inl ⟨hdelimits, handler_remains hframes hr hb hstack hhandles hgrows hrest⟩
  | @delegate depth hrole =>
    have hbecomes : top.Becomes (.tryCatch top.seq [] (some depth)) [] := by
      rw [Frame.Becomes, hrole]
      exact ⟨[], _, rfl, rfl⟩
    rw [close_frames] at hrest
    rw [hframes] at hstack ⊢
    exact .inl ⟨rfl, close_remains hframes hr (hstack.outer (by simp [hrole])) hbecomes rfl hgrows
      hprecedes hrest⟩
  | done =>
    rw [close_frames] at hrest
    exact .inl ⟨rfl, done_remains hframes hr hb hstack hgrows hprecedes hrest⟩

end Steps

end Reading

/-- A visit is what an instruction of code stands for in the place where it is met. -/
def Body.Shows (b : Body) (scope : Scope) (i : Wire.Instr) (v : Visit) : Prop :=
  ∃ labels, b.Path v.seq labels ∧ scope.Reads labels i v.instr

namespace Reading

variable {scope : Scope} {r : Reading} {is : List Wire.Instr} {last : Reading}

/-- The walk meets the instructions of code in their order. -/
theorem run_remains {b : Body} (hb : Nested b.seqs) (hentry : b.entry = 0)
    (hspelled : ∀ i ∈ is, i.Spelled) (hr : r.Sound) (hstack : r.frames = [] ∨ Frame.Stack r.frames)
    (h : run scope r is = .ok b.seqs) : ∃ visits, b.Remains r 0 r.frames visits ∧
      Forall₂ (b.Shows scope) (is.filter fun i => !i.delimits) visits := by
  induction is generalizing r with
  | nil =>
    obtain ⟨hframes, -⟩ := run_nil_iff.mp h
    exact ⟨[], hframes ▸ .none 0, .nil⟩
  | cons i is ih =>
    obtain ⟨top, outer, next, hframes, hstep, hrun⟩ := run_cons_iff.mp h
    have hframed : Frame.Stack r.frames := hstack.resolve_left (by simp [hframes])
    obtain ⟨hi, his⟩ := forall_mem_cons.mp hspelled
    obtain ⟨visits, hrest, hshows⟩ :=
      ih his (hstep.sound hframes hr) (hstep.stack hframes hframed) hrun
    rcases hstep.remains hframes hr hb hi hframed (run_grows hrun) (run_precedes hrun) hrest with
      ⟨hdelimits, hall⟩ | ⟨v, hdelimits, hv, hreads, hall⟩
    · refine ⟨visits, hall, ?_⟩
      rwa [filter_cons_of_neg (by simp [hdelimits])]
    · refine ⟨v :: visits, hall, ?_⟩
      rw [filter_cons_of_pos (by simp [hdelimits])]
      rw [hframes] at hframed hall hreads
      exact .cons ⟨_, hv ▸ hall.path hentry hframed, hreads⟩ hshows

/-- The states that instructions of code lead to. -/
inductive Advances (scope : Scope) : Reading → List Wire.Instr → Reading → Prop
  | start (r : Reading) : Advances scope r [] r
  | step {r next last : Reading} {top : Frame} {outer : List Frame} {i : Wire.Instr}
      {is : List Wire.Instr} : r.frames = top :: outer → step scope r top outer i = .ok next →
      Advances scope next is last → Advances scope r (i :: is) last

theorem Advances.run (h : Advances scope r is last) (rest : List Wire.Instr) :
    run scope r (is ++ rest) = run scope last rest := by
  induction h with
  | start => rfl
  | @step r next last top outer i is hframes hstep _ ih =>
    obtain ⟨seqs, frames⟩ := r
    cases hframes
    rw [cons_append, Reading.run, hstep]
    exact ih

/-- The frame around a construct is there when it closes, and so are all sequences that open frames
and their constructs name. -/
structure Safe (r : Reading) : Prop where
  stack : r.frames = [] ∨ Frame.Stack r.frames
  seqs : ∀ f ∈ r.frames, f.seq < r.seqs.length
  owned : ∀ f ∈ r.frames, ∀ id ∈ f.owned, id < r.seqs.length

theorem Advances.safe (h : Advances scope r is last) (hr : r.Sound) (hn : r.Nests)
    (hstack : r.frames = [] ∨ Frame.Stack r.frames) : last.Safe := by
  induction h with
  | start r =>
    refine ⟨hstack, fun f hf => ?_, fun f hf id hid => ?_⟩
    · exact hr.seq_lt hf
    · refine mem_range.mp (hn.perm.subset (mem_cons_of_mem _ (mem_append_right _ ?_)))
      exact mem_flatMap.mpr ⟨f, hf, hid⟩
  | step hframes hstep _ ih =>
    have hstep := step_of_eq_ok hstep
    have hframed := hstack.resolve_left (by simp [hframes])
    exact ih (hstep.sound hframes hr) (hstep.nests hframes hr hn) (hstep.stack hframes hframed)

/-- Where the reading of a body of a type starts. -/
def initial (type : TypeId) : Reading :=
  ⟨[⟨.multi type, []⟩], [⟨0, .entry⟩]⟩

end Reading

/-- A body that is a tree of sequences, with branches to enclosing sequences only, and that holds what
the code says in the order of the code. -/
structure Body.Traced (b : Body) (scope : Scope) (is : List Wire.Instr) (visits : List Visit) :
    Prop where
  entry : b.entry = 0
  nested : Nested b.seqs
  paths : ∀ seq < b.seqs.length, ∃ labels, b.Path seq labels ∧
    ∀ labels', b.Path seq labels' → labels' = labels
  enclosed : ∀ seq index i labels, b.instr? seq index = some i → b.Path seq labels →
    ∀ target ∈ i.targets, target ∈ labels
  walk : b.walk = .ok visits
  once : (visits.map Visit.place).Nodup
  all : ∀ v, v ∈ visits ↔ b.instr? v.seq v.index = some v.instr
  order : List.Forall₂ (b.Shows scope) (is.filter fun i => !i.delimits) visits

/-- What is read is walked in the order of the code. -/
theorem Body.traced_of_run {b : Body} (hentry : b.entry = 0) {scope : Scope} {type : TypeId}
    {is : List Wire.Instr} (hspelled : ∀ i ∈ is, i.Spelled)
    (h : Reading.run scope (.initial type) is = .ok b.seqs) : ∃ visits, b.Traced scope is visits := by
  have hnested : Nested b.seqs :=
    Reading.run_nested (Reading.start_sound type) (Reading.start_nests type) h
  obtain ⟨visits, hremains, hshows⟩ :=
    Reading.run_remains hnested hentry hspelled (Reading.start_sound type) (.inr .entry) h
  have hpos : 0 < b.seqs.length := mem_range.mp (hnested.perm.subset mem_cons_self)
  have hwalk : b.walk = .ok visits := by
    rw [walk_eq_inside hnested hentry, inside_eq_onward hnested hpos]
    cases hremains with
    | entry => rfl
  have hall : ∀ v, v ∈ visits ↔ b.instr? v.seq v.index = some v.instr := by
    intro v
    rw [mem_walk_iff hwalk]
    refine ⟨And.right, fun hv => ⟨?_, hv⟩⟩
    obtain ⟨s, hs, -⟩ := Option.bind_eq_some_iff.mp hv
    rw [Reaches, hentry]
    exact reaches_of_nested hnested (lt_of_getElem? hs)
  refine ⟨visits, hentry, hnested, fun seq hseq => ?_, ?_, hwalk, ?_, hall, hshows⟩
  · have hreach := reaches_of_nested hnested hseq
    obtain ⟨labels, hlabels⟩ := hreach.path (hentry ▸ Path.entry)
    exact ⟨labels, hlabels, fun labels' h' => hlabels.unique hnested hentry h'⟩
  · intro seq index i labels hi hlabels
    obtain ⟨x, -, labels', hpath, hreads⟩ :=
      forall₂_mem_right hshows ((hall ⟨seq, index, i⟩).mpr hi)
    rw [← hlabels.unique hnested hentry hpath]
    exact hreads.targets
  · obtain ⟨found, hfound, hnodup⟩ := (isTree_of_nested hnested hentry).places_nodup
    cases hwalk.symm.trans hfound
    exact hnodup

namespace Program

/-- Reading a body never leaves the open frames without what it needs of them, whether it fails in the
end or not. If it does not fail, the function gets a body whose sequences form a tree, each instruction
of which branches to sequences around it only, and a walk through the tree meets each instruction once,
in the order of the code. -/
theorem takeBody_traced {p : Program} {func : FuncId} {f : Function} (hf : p.funcs[func]? = some f)
    (code : Wire.FuncBody) :
    (∀ vars is last rest, Reading.Advances (p.scope func vars) (.initial f.type) is last →
      last.Safe ∧ Reading.run (p.scope func vars) (.initial f.type) (is ++ rest) =
        Reading.run (p.scope func vars) last rest) ∧
    ∀ q, p.takeBody func code = .ok q → ∃ b is visits,
      q.funcs[func]? = some { f with kind := .defined b } ∧ Wire.decodeInstrs code.code = .ok is ∧
      Reading.run (p.scope func (b.params ++ b.locals)) (.initial f.type) is = .ok b.seqs ∧
      b.Traced (p.scope func (b.params ++ b.locals)) is visits := by
  refine ⟨fun vars is last rest h => ⟨?_, h.run rest⟩, fun q hq => ?_⟩
  · exact h.safe (Reading.start_sound _) (Reading.start_nests _) (.inr .entry)
  · obtain ⟨declared, b, hreads, rfl⟩ := takeBody_eq_ok_iff.mp hq
    obtain ⟨is, his, hrun⟩ := Body.seqsOfCode_eq_ok_iff.mp hreads.seqs
    have htype : p.typeOf func = f.type := by
      rw [typeOf, hf]
      rfl
    rw [htype] at hrun
    obtain ⟨visits, htraced⟩ :=
      Body.traced_of_run hreads.entry (Wire.decodeInstrs_spelled his) hrun
    exact ⟨b, is, visits, setBody_self _ b hf, his, hrun, htraced⟩

/-- A program of one function, with a tag to throw. -/
def tangled : Program :=
  { types := [⟨[], []⟩], funcs := [⟨[], 0, .defined {}⟩], tags := [⟨0, 0, none⟩] }

/-- A block around an `if` with both of its sequences, a `try` with two handlers, and a `try_table`,
with branches out of all of them. -/
def tangledCode : Wire.FuncBody :=
  ⟨[], [0x02, 0x40, 0x41, 0x00, 0x04, 0x40, 0x0C, 0x01, 0x05, 0x0E, 0x02, 0x00, 0x01, 0x02, 0x0B, 0x0B,
    0x06, 0x40, 0x00, 0x07, 0x00, 0x0C, 0x00, 0x19, 0x0C, 0x01, 0x0B,
    0x1F, 0x40, 0x01, 0x00, 0x00, 0x00, 0x0C, 0x01, 0x0B, 0x0B]⟩

theorem tangled_traced : ∃ q b is visits, tangled.takeBody 0 tangledCode = .ok q ∧
    q.funcs[0]? = some ⟨[], 0, .defined b⟩ ∧ Wire.decodeInstrs tangledCode.code = .ok is ∧
    b.Traced (tangled.scope 0 (b.params ++ b.locals)) is visits := by
  obtain ⟨q, hq⟩ : ∃ q, tangled.takeBody 0 tangledCode = .ok q := ⟨_, rfl⟩
  have hf : tangled.funcs[0]? = some ⟨[], 0, .defined {}⟩ := rfl
  obtain ⟨b, is, visits, hb, his, -, htraced⟩ := (takeBody_traced hf tangledCode).2 q hq
  exact ⟨q, b, is, visits, hq, hb, his, htraced⟩

end Program

end HostCatch
