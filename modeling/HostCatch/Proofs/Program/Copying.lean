import HostCatch.Proofs.Program.Enclosing
import HostCatch.Proofs.Program.Tracing

namespace HostCatch

open List

namespace Instr

/-- An instruction of the same sort with other sequences: those nested in it and those that it may
branch to. -/
structure Corresponds (σ : SeqId → SeqId) (i j : Instr) : Prop where
  opcode : j.opcode = i.opcode
  children : j.children = i.children.map σ
  targets : j.targets = i.targets.map σ

/-- The sequences that are opened while the code of an instruction is read, with `nested` for those
inside each of them. The alternative of a conditional is opened along with its consequent. -/
def opens (nested : SeqId → List SeqId) : Instr → List SeqId
  | ifElse consequent alternative =>
    consequent :: alternative :: (nested consequent ++ nested alternative)
  | i => i.children.flatMap fun child => child :: nested child

theorem opens_perm (nested : SeqId → List SeqId) (i : Instr) :
    (i.opens nested).Perm (i.children.flatMap fun child => child :: nested child) := by
  cases i with
  | ifElse consequent alternative =>
    simp only [opens, children, flatMap_cons, flatMap_nil, append_nil, cons_append]
    exact .cons _ (perm_middle.symm)
  | _ => exact .refl _

theorem opens_of_children {i : Instr} {id : SeqId} (h : i.children = [id])
    (nested : SeqId → List SeqId) : i.opens nested = id :: nested id := by
  cases i with
  | ifElse => cases h
  | _ =>
    rw [opens, h, flatMap_singleton]
    simp

end Instr

namespace Body

variable {id : SeqId} {b : Body}

/-- The sequences that are opened while the code of a sequence is read, in their order. -/
def opened (b : Body) : Nat → SeqId → List SeqId
  | 0, _ => []
  | bound + 1, id => ((b.seqs[id]?.map Seq.instrs).getD []).flatMap (Instr.opens (b.opened bound))

theorem opened_succ {s : Seq} (hs : b.seqs[id]? = some s) (bound : Nat) :
    b.opened (bound + 1) id = s.instrs.flatMap (Instr.opens (b.opened bound)) := by
  rw [opened, hs]
  rfl

theorem opened_of_empty {s : Seq} (hs : b.seqs[id]? = some s) (hempty : s.instrs = []) (bound : Nat) :
    b.opened bound id = [] := by
  cases bound with
  | zero => rfl
  | succ bound => rw [opened_succ hs, hempty, flatMap_nil]

theorem opened_perm {bound : Nat} {visits : List Visit} (h : b.walkSeq bound id = .ok visits) :
    (b.opened bound id).Perm (b.entered bound id) := by
  induction bound generalizing id visits with
  | zero => cases h
  | succ bound ih =>
    obtain ⟨s, parts, hs, -, hparts⟩ := walkSeq_succ_eq_ok_iff.mp h
    refine Perm.trans ?_ (entered_perm h hs).symm
    rw [opened_succ hs, Seq.children, flatMap_assoc]
    refine Perm.flatMap_left _ fun i hi => (i.opens_perm _).trans ?_
    refine Perm.flatMap_left _ fun child hchild => .cons child ?_
    obtain ⟨index, hindex⟩ := getElem?_of_mem hi
    obtain ⟨_, -, nested, hnested, -⟩ :=
      forall₂_mem_left hparts (mk_mem_zipIdx_iff_getElem?.mpr hindex)
    obtain ⟨vs, -, hwalk⟩ := forall₂_mem_left hnested hchild
    exact ih hwalk

theorem IsTree.opened_nodup (h : b.IsTree) :
    (b.entry :: b.opened (b.seqs.length + 1) b.entry).Nodup := by
  obtain ⟨visits, hwalk, hnodup⟩ := h
  have hperm := opened_perm hwalk
  rw [entered_of_walkSeq hwalk] at hperm
  exact (hperm.cons b.entry).nodup_iff.mpr hnodup

theorem IsTree.mem_opened (h : b.IsTree) (hid : b.Reaches id) :
    id ∈ b.entry :: b.opened (b.seqs.length + 1) b.entry := by
  obtain ⟨visits, hwalk, -⟩ := h
  have hperm := opened_perm hwalk
  rw [entered_of_walkSeq hwalk] at hperm
  refine (hperm.cons b.entry).mem_iff.mpr ?_
  obtain ⟨labels, hpath⟩ := hid.path .entry
  cases hpath with
  | entry => exact mem_cons_self
  | nested hseq hi hchild =>
    have hvisit := (mem_walk_iff (v := ⟨_, _, _⟩) hwalk).mpr ⟨hseq.reaches, hi⟩
    exact mem_cons_of_mem _ (mem_flatMap.mpr ⟨_, hvisit, hchild⟩)

/-- A sequence holds the instructions that correspond to those of another. -/
def Copies (b : Body) (σ : SeqId → SeqId) (id : SeqId) (t : Seq) : Prop :=
  ∃ s, b.seqs[id]? = some s ∧ List.Forall₂ (Instr.Corresponds σ) s.instrs t.instrs

end Body

theorem Frame.Handles.unique {f : Frame} {tried tried' : SeqId} {handlers handlers' : List Handler}
    (h : f.Handles tried handlers) (h' : f.Handles tried' handlers') :
    tried = tried' ∧ handlers = handlers' := by
  cases h with
  | tried hrole =>
    cases h' with
    | tried => exact ⟨rfl, rfl⟩
    | handler hrole' => cases hrole.symm.trans hrole'
  | handler hrole =>
    cases h' with
    | tried hrole' => cases hrole.symm.trans hrole'
    | handler hrole' =>
      cases hrole.symm.trans hrole'
      exact ⟨rfl, rfl⟩

theorem Frame.Handles.construct? {f : Frame} {tried : SeqId} {handlers : List Handler}
    (h : f.Handles tried handlers) : f.construct? = some (.tryCatch tried handlers none) := by
  cases h with
  | tried hrole | handler hrole => simp [Frame.construct?, hrole]

namespace Reading

variable {seqs : List Seq} {outer : List Frame} {start : SeqId}
  {scope : Scope} {σ : SeqId → SeqId} {new : List SeqId}

/-- Sequences with further instructions at the end of one of them. -/
def extend (seqs : List Seq) (id : SeqId) (js : List Instr) : List Seq :=
  seqs.modify id fun s => { s with instrs := s.instrs ++ js }

theorem extend_nil (seqs : List Seq) (id : SeqId) : extend seqs id [] = seqs := by
  simp only [extend, append_nil]
  exact modify_id id seqs

theorem extend_append {id : SeqId} (hid : id < seqs.length) (more : List Seq) (js : List Instr) :
    extend (seqs ++ more) id js = extend seqs id js ++ more := by
  rw [extend, extend, modify_eq_take_drop, modify_eq_take_drop,
    take_append_of_le_length (Nat.le_of_lt hid), drop_append_of_le_length (Nat.le_of_lt hid),
    drop_eq_getElem_cons hid, cons_append, modifyHead_cons, modifyHead_cons,
    append_assoc, cons_append]

theorem extend_extend (seqs : List Seq) (id : SeqId) (js js' : List Instr) :
    extend (extend seqs id js) id js' = extend seqs id (js ++ js') := by
  simp [extend, modify_modify_eq, Function.comp_def]

theorem extend_new (seqs : List Seq) (type : BlockType) (more : List Seq) (js : List Instr) :
    extend (seqs ++ ⟨type, []⟩ :: more) seqs.length js = seqs ++ ⟨type, js⟩ :: more := by
  rw [extend, modify_eq_take_drop]
  simp

theorem length_extend (seqs : List Seq) (id : SeqId) (js : List Instr) :
    (extend seqs id js).length = seqs.length := by
  simp [extend]

theorem run_cons_eq_ok {top : Frame} {i : Wire.Instr} {is : List Wire.Instr} {final : List Seq}
    (h : run scope ⟨seqs, top :: outer⟩ (i :: is) = .ok final) : ∃ next,
      step scope ⟨seqs, top :: outer⟩ top outer i = .ok next ∧ run scope next is = .ok final :=
  of_bind h

theorem run_close {f around : Frame} {construct : Instr} (hf : f.construct? = some construct)
    (is : List Wire.Instr) :
    run scope ⟨seqs, f :: around :: outer⟩ (Emitting.close :: is) =
      run scope ⟨extend seqs around.seq [construct], around :: outer⟩ is := by
  rw [Emitting.close, run_step (.done _), hf]
  rfl

theorem run_orElse {f : Frame} {alternative : SeqId} (hf : f.role = .consequent alternative)
    (is : List Wire.Instr) :
    run scope ⟨seqs, f :: outer⟩ (⟨0x05, .none⟩ :: is) =
      run scope ⟨seqs, ⟨alternative, .alternative f.seq⟩ :: outer⟩ is :=
  run_step (.orElse .none hf) is

theorem Step.opensHandler {r next : Reading} {top : Frame} {first : Wire.Instr}
    (h : Step scope r top outer first next) {tried : SeqId} {before : List Handler}
    (htop : top.Handles tried before)
    (hfirst : first = ⟨0x19, .none⟩ ∨ ∃ k, first = ⟨0x07, .throw k⟩) :
    ∃ tag, next = r.openHandler outer tried before tag := by
  have hknown : first.Known := by
    obtain rfl | ⟨k, rfl⟩ := hfirst
    · exact .catchAll .none
    · exact .catch k
  have hop : first.op = 0x19 ∨ first.op = 0x07 :=
    hfirst.imp (congrArg Wire.Instr.op) fun ⟨_, hk⟩ => congrArg Wire.Instr.op hk
  cases h with
  | handler _ hhandles =>
    obtain ⟨rfl, rfl⟩ := htop.unique hhandles
    exact ⟨_, rfl⟩
  | plain hplain =>
    cases hplain with
    | raw hraw => exact absurd hknown hraw
    | _ => obtain hop | hop := hop <;> cases hop
  | _ => obtain hop | hop := hop <;> cases hop

/-- What was written for instructions in a sequence, read inside the frames that stand for the sequences
around them: it becomes instructions that correspond to them, and the sequences that are opened become
copies, which stand behind those that were there. -/
def Echoes (b : Body) (σ : SeqId → SeqId) (scope : Scope) (labels new : List SeqId) (is : List Instr)
    (ws : List Wire.Instr) : Prop :=
  ∀ seqs top outer rest final, (top :: outer).map Frame.seq = labels.map σ →
    top.seq < seqs.length → new.map σ = List.range' seqs.length new.length →
    run scope ⟨seqs, top :: outer⟩ (ws ++ rest) = .ok final → ∃ js fresh,
      List.Forall₂ (Instr.Corresponds σ) is js ∧ List.Forall₂ (b.Copies σ) new fresh ∧
      run scope ⟨extend seqs top.seq js ++ fresh, top :: outer⟩ rest = .ok final

theorem map_cons_eq_range' {id : SeqId}
    (h : (id :: new).map σ = List.range' start (id :: new).length) :
    σ id = start ∧ new.map σ = List.range' (start + 1) new.length := by
  rw [map_cons, length_cons, range'_succ] at h
  exact List.cons.inj h

theorem map_append_eq_range' {new' : List SeqId}
    (h : (new ++ new').map σ = List.range' start (new ++ new').length) :
    new.map σ = List.range' start new.length ∧
      new'.map σ = List.range' (start + new.length) new'.length := by
  rw [map_append, length_append, ← range'_append_1] at h
  exact append_inj h (by simp)

/-- What is written for a handler: its first instruction and its code. -/
def HandlerEchoes (b : Body) (σ : SeqId → SeqId) (scope : Scope) (labels new : List SeqId) (id : SeqId)
    (part : List Wire.Instr) : Prop :=
  ∃ first ws s, part = first :: ws ∧ (first = ⟨0x19, .none⟩ ∨ ∃ k, first = ⟨0x07, .throw k⟩) ∧
    b.seqs[id]? = some s ∧ Echoes b σ scope (id :: labels) new s.instrs ws

namespace Echoes

variable {b : Body} {σ : SeqId → SeqId} {scope : Scope} {labels new new' : List SeqId}
  {is is' : List Instr} {ws ws' : List Wire.Instr}
  {nested : SeqId → List SeqId} {parts : List (List Wire.Instr)} {id : SeqId} {s : Seq}
  {rest : List Wire.Instr} {final : List Seq}

theorem nil : Echoes b σ scope labels [] [] [] := by
  intro seqs top outer rest final _ _ _ hrun
  refine ⟨[], [], .nil, .nil, ?_⟩
  rwa [extend_nil, append_nil]

theorem append (h : Echoes b σ scope labels new is ws) (h' : Echoes b σ scope labels new' is' ws') :
    Echoes b σ scope labels (new ++ new') (is ++ is') (ws ++ ws') := by
  intro seqs top outer rest final hframes htop hnew hrun
  rw [append_assoc] at hrun
  obtain ⟨hfirst, hsecond⟩ := map_append_eq_range' hnew
  obtain ⟨js, fresh, his, hfresh, hrun⟩ := h seqs top outer _ final hframes htop hfirst hrun
  have hlength : (extend seqs top.seq js ++ fresh).length = seqs.length + new.length := by
    rw [length_append, length_extend, hfresh.length_eq]
  obtain ⟨js', fresh', his', hfresh', hrun⟩ :=
    h' _ top outer rest final hframes (Nat.lt_of_lt_of_le htop (hlength ▸ Nat.le_add_right _ _))
      (hlength.symm ▸ hsecond) hrun
  refine ⟨js ++ js', fresh ++ fresh', rel_append his his', rel_append hfresh hfresh', ?_⟩
  rwa [extend_append (by rwa [length_extend]), extend_extend, append_assoc] at hrun

theorem flatten {nested : Instr → List SeqId}
    (h : Forall₂ (fun i ws => Echoes b σ scope labels (nested i) [i] ws) is parts) :
    Echoes b σ scope labels (is.flatMap nested) is parts.flatten := by
  induction h with
  | nil => exact nil
  | cons hi _ ih => exact hi.append ih

theorem enter (h : Echoes b σ scope (id :: labels) new s.instrs ws) (hs : b.seqs[id]? = some s)
    {before after : List Seq} {type : BlockType} {f : Frame}
    (hrun : run scope ⟨before ++ ⟨type, []⟩ :: after, f :: outer⟩ (ws ++ rest) = .ok final)
    (hf : f.seq = before.length) (hid : σ id = before.length)
    (houter : outer.map Frame.seq = labels.map σ)
    (hnew : new.map σ = List.range' (before ++ ⟨type, []⟩ :: after).length new.length) :
    ∃ t fresh, b.Copies σ id t ∧ Forall₂ (b.Copies σ) new fresh ∧
      run scope ⟨before ++ t :: (after ++ fresh), f :: outer⟩ rest = .ok final := by
  have hframes : (f :: outer).map Frame.seq = (id :: labels).map σ := by
    rw [map_cons, map_cons, houter, hf, hid]
  have hlt : f.seq < (before ++ ⟨type, []⟩ :: after).length := by
    rw [hf, length_append, length_cons]
    exact Nat.lt_add_of_pos_right (Nat.succ_pos _)
  obtain ⟨js, fresh, hjs, hfresh, hrun⟩ := h _ f outer rest final hframes hlt hnew hrun
  refine ⟨⟨type, js⟩, fresh, ⟨s, hs, hjs⟩, hfresh, ?_⟩
  rwa [hf, extend_new, append_assoc, cons_append] at hrun

theorem sole {i : Instr} {x : Wire.Instr} (h : Echoes b σ scope (id :: labels) new s.instrs ws)
    (hs : b.seqs[id]? = some s)
    (hopen : ∀ seqs top outer next, (top :: outer).map Frame.seq = labels.map σ →
      step scope ⟨seqs, top :: outer⟩ top outer x = .ok next → ∃ type construct,
        next = ⟨seqs ++ [⟨type, []⟩], ⟨seqs.length, .sole construct⟩ :: top :: outer⟩ ∧
        (σ id = seqs.length → i.Corresponds σ construct)) :
    Echoes b σ scope labels (id :: new) [i] (x :: ws ++ [Emitting.close]) := by
  intro seqs top outer rest final hframes htop hnew hrun
  obtain ⟨hid, hnew⟩ := map_cons_eq_range' hnew
  rw [cons_append, cons_append, append_assoc] at hrun
  obtain ⟨next, hstep, hrun⟩ := run_cons_eq_ok hrun
  obtain ⟨type, construct, rfl, hi⟩ := hopen seqs top outer next hframes hstep
  obtain ⟨t, fresh, ht, hfresh, hrun⟩ :=
    h.enter hs hrun rfl hid hframes (by rwa [length_append, length_singleton])
  have hclosed := (run_close rfl rest).symm.trans hrun
  rw [extend_append htop] at hclosed
  exact ⟨[construct], t :: fresh, .cons (hi hid) .nil, .cons ht hfresh, hclosed⟩

theorem ifElse {consequent alternative : SeqId} {t : Seq}
    (h : Echoes b σ scope (consequent :: labels) new s.instrs ws)
    (hs : b.seqs[consequent]? = some s) (ht : b.seqs[alternative]? = some t)
    (h' : (ws' = [] ∧ t.instrs = [] ∧ new' = []) ∨ ∃ inner, ws' = ⟨0x05, .none⟩ :: inner ∧
      Echoes b σ scope (alternative :: labels) new' t.instrs inner) (k : Int32) :
    Echoes b σ scope labels (consequent :: alternative :: (new ++ new'))
      [.ifElse consequent alternative] (⟨0x04, .block k⟩ :: ws ++ ws' ++ [Emitting.close]) := by
  intro seqs top outer rest final hframes htop hnew hrun
  obtain ⟨hconsequent, hnew⟩ := map_cons_eq_range' hnew
  obtain ⟨halternative, hnew⟩ := map_cons_eq_range' hnew
  obtain ⟨hfirst, hsecond⟩ := map_append_eq_range' hnew
  rw [cons_append, cons_append, cons_append, append_assoc, append_assoc] at hrun
  obtain ⟨next, hstep, hrun⟩ := run_cons_eq_ok hrun
  obtain ⟨type, -, hnext⟩ := of_bind hstep
  cases hnext
  have hcorresponds : (Instr.ifElse consequent alternative).Corresponds σ
      (.ifElse seqs.length (seqs.length + 1)) := by
    refine ⟨rfl, ?_, rfl⟩
    simp [Instr.children, hconsequent, halternative]
  have hopened : run scope ⟨seqs ++ ⟨type, []⟩ :: [⟨type, []⟩],
      ⟨seqs.length, .consequent (seqs.length + 1)⟩ :: top :: outer⟩
      (ws ++ (ws' ++ ([Emitting.close] ++ rest))) = .ok final := by
    simpa [openSeq] using hrun
  obtain ⟨t₁, fresh, ht₁, hfresh, hrun⟩ :=
    h.enter hs hopened rfl hconsequent hframes (by simpa using hfirst)
  obtain ⟨rfl, hempty, rfl⟩ | ⟨inner, rfl, hinner⟩ := h'
  · have hclosed := (run_close rfl rest).symm.trans hrun
    rw [extend_append htop] at hclosed
    have ht₂ : b.Copies σ alternative ⟨type, []⟩ := ⟨t, ht, by rw [hempty]; exact .nil⟩
    rw [append_nil]
    exact ⟨_, _, .cons hcorresponds .nil, .cons ht₁ (.cons ht₂ hfresh), hclosed⟩
  · have hturned : run scope ⟨(seqs ++ [t₁]) ++ ⟨type, []⟩ :: fresh,
        ⟨seqs.length + 1, .alternative seqs.length⟩ :: top :: outer⟩
        (inner ++ ([Emitting.close] ++ rest)) = .ok final := by
      rw [append_assoc]
      exact (run_orElse rfl _).symm.trans hrun
    have hbehind : ((seqs ++ [t₁]) ++ ⟨type, []⟩ :: fresh).length =
        seqs.length + 1 + 1 + new.length := by
      simp only [length_append, length_cons, length_nil, hfresh.length_eq]
      omega
    obtain ⟨t₂, fresh', ht₂, hfresh', hrun⟩ := hinner.enter ht hturned (by simp)
      (by simpa using halternative) hframes (hbehind.symm ▸ hsecond)
    have hclosed := (run_close rfl rest).symm.trans hrun
    rw [append_assoc, extend_append htop] at hclosed
    exact ⟨_, _, .cons hcorresponds .nil, .cons ht₁ (.cons ht₂ (rel_append hfresh hfresh')),
      hclosed⟩

theorem handlers {ids : List SeqId}
    (h : Forall₂ (fun id part => HandlerEchoes b σ scope labels (nested id) id part) ids parts)
    {f : Frame} {tried : SeqId} {before : List Handler} (hf : f.Handles tried before)
    (houter : outer.map Frame.seq = labels.map σ)
    (hnew : (ids.flatMap fun id => id :: nested id).map σ =
      List.range' seqs.length (ids.flatMap fun id => id :: nested id).length)
    (hrun : run scope ⟨seqs, f :: outer⟩ (parts.flatten ++ rest) = .ok final) :
    ∃ g more fresh, g.Handles tried (before ++ more) ∧ more.map Handler.seq = ids.map σ ∧
      (ids = [] → g = f) ∧ Forall₂ (b.Copies σ) (ids.flatMap fun id => id :: nested id) fresh ∧
      run scope ⟨seqs ++ fresh, g :: outer⟩ rest = .ok final := by
  induction h generalizing seqs f before with
  | nil =>
    exact ⟨f, [], [], by rwa [append_nil], rfl, fun _ => rfl, .nil, by rwa [append_nil]⟩
  | @cons id part ids parts hpart _ ih =>
    obtain ⟨first, ws, s, rfl, hfirst, hs, hws⟩ := hpart
    obtain ⟨hown, hothers⟩ := map_append_eq_range' hnew
    obtain ⟨hid, hown⟩ := map_cons_eq_range' hown
    rw [flatten_cons, append_assoc, cons_append] at hrun
    obtain ⟨next, hstep, hrun⟩ := run_cons_eq_ok hrun
    obtain ⟨tag, rfl⟩ := (step_of_eq_ok hstep).opensHandler hf hfirst
    obtain ⟨t, fresh, ht, hfresh, hrun⟩ :=
      hws.enter hs hrun rfl hid houter (by rwa [length_append, length_singleton])
    rw [nil_append] at hrun
    have hlength : (seqs ++ t :: fresh).length = seqs.length + (id :: nested id).length := by
      rw [length_append, length_cons, length_cons, hfresh.length_eq]
    obtain ⟨g, more, fresh', hg, hmore, hsame, hfresh', hrun⟩ :=
      ih (.handler rfl) (hlength.symm ▸ hothers) hrun
    refine ⟨g, ⟨tag, seqs.length⟩ :: more, t :: fresh ++ fresh', ?_, ?_, ?_, ?_, ?_⟩
    · rwa [append_assoc] at hg
    · rw [map_cons, map_cons, hmore, hid]
    · exact fun hnil => absurd hnil (cons_ne_nil _ _)
    · exact rel_append (.cons ht hfresh) hfresh'
    · rwa [← append_assoc]

theorem tryCatch {handlers : List Handler} {delegate : Option UInt32} {ending : Wire.Instr}
    (h : Echoes b σ scope (id :: labels) (nested id) s.instrs ws) (hs : b.seqs[id]? = some s)
    (hparts : Forall₂ (fun id part => HandlerEchoes b σ scope labels (nested id) id part)
      (handlers.map Handler.seq) parts)
    (hending : (ending = Emitting.close ∧ delegate = none) ∨
      ∃ depth, ending = ⟨0x18, .branch depth⟩ ∧ handlers = []) (k : Int32) :
    Echoes b σ scope labels
      ((id :: handlers.map Handler.seq).flatMap fun child => child :: nested child)
      [.tryCatch id handlers delegate] (⟨0x06, .block k⟩ :: ws ++ parts.flatten ++ [ending]) := by
  intro seqs top outer rest final hframes htop hnew hrun
  rw [flatMap_cons] at hnew ⊢
  obtain ⟨hown, hothers⟩ := map_append_eq_range' hnew
  obtain ⟨hid, hown⟩ := map_cons_eq_range' hown
  rw [cons_append, cons_append, cons_append, append_assoc, append_assoc] at hrun
  obtain ⟨next, hstep, hrun⟩ := run_cons_eq_ok hrun
  obtain ⟨type, -, hnext⟩ := of_bind hstep
  cases hnext
  obtain ⟨t, fresh, ht, hfresh, hrun⟩ :=
    h.enter hs hrun rfl hid hframes (by rwa [length_append, length_singleton])
  rw [nil_append] at hrun
  have hlength : (seqs ++ t :: fresh).length = seqs.length + (id :: nested id).length := by
    rw [length_append, length_cons, length_cons, hfresh.length_eq]
  obtain ⟨g, more, fresh', hg, hmore, hsame, hfresh', hrun⟩ :=
    Echoes.handlers hparts (.tried rfl) hframes (hlength.symm ▸ hothers) hrun
  have hcorresponds (delegate' : Option UInt32) :
      (Instr.tryCatch id handlers delegate).Corresponds σ (.tryCatch seqs.length more delegate') := by
    refine ⟨rfl, ?_, rfl⟩
    rw [Instr.children, Instr.children, hmore, map_cons, hid]
  have hcopies := rel_append (.cons ht hfresh) hfresh'
  rw [append_assoc, cons_append] at hrun
  obtain ⟨rfl, rfl⟩ | ⟨depth, rfl, rfl⟩ := hending
  · have hclosed := (run_close hg.construct? rest).symm.trans hrun
    rw [extend_append htop] at hclosed
    exact ⟨_, _, .cons (hcorresponds none) .nil, hcopies, hclosed⟩
  · obtain rfl := hsame rfl
    obtain rfl : more = [] := map_eq_nil_iff.mp hmore
    have hclosed : run scope ⟨extend (seqs ++ t :: (fresh ++ fresh')) top.seq
        [.tryCatch seqs.length [] (some depth)], top :: outer⟩ rest = .ok final :=
      (run_step (.delegate rfl) rest).symm.trans hrun
    rw [extend_append htop] at hclosed
    exact ⟨_, _, .cons (hcorresponds (some depth)) .nil, hcopies, hclosed⟩

end Echoes

end Reading

theorem eq_map_of_forall₂ {α β γ : Type} {R : α → β → Prop} {S : β → γ → Prop} {f : α → γ}
    {as : List α} {bs : List β} {cs : List γ} (hab : Forall₂ R as bs)
    (hbc : Forall₂ S bs cs) (h : ∀ a b c, R a b → S b c → c = f a) : cs = as.map f := by
  induction hab generalizing cs with
  | nil =>
    cases hbc
    rfl
  | cons ha _ ih =>
    cases hbc with
    | cons hb hbc => rw [map_cons, ← h _ _ _ ha hb, ← ih hbc]

namespace Emitting

open Emit Reading

variable {w : Emitting} {σ : SeqId → SeqId} {scope : Scope} {labels : List SeqId} {frames : List Frame}
  {p : Program}

/-- A depth leads to the frame that stands for the sequence which it was written for. -/
theorem label_of_depth (hlabels : labels.length ≤ 2 ^ 32)
    (hframes : frames.map Frame.seq = labels.map σ) {target found : SeqId} {k : UInt32}
    (hk : w.depth labels target = .ok k) (h : scope.label frames k = .ok found) : found = σ target := by
  obtain ⟨n, rfl, hget⟩ := depth_eq_ok hk
  have hlt := (List.getElem?_eq_some_iff.mp hget).1
  have hn : (UInt32.ofNat n).toNat = n := Reader.toNat_ofNat_size (by omega)
  unfold Scope.label at h
  split at h
  next f hf =>
    cases h
    have hsame := congrArg (·[n]?) hframes
    rw [hn] at hf
    simp only [getElem?_map, hf, hget, Option.map_some] at hsame
    exact Option.some.inj hsame
  next => cases h

theorem clauses_correspond (hlabels : labels.length ≤ 2 ^ 32)
    (hframes : frames.map Frame.seq = labels.map σ) {clauses found : List Clause}
    {catches : List Wire.CatchClause} (hcatches : Forall₂ (w.Directs labels) clauses catches)
    (h : catches.mapM (scope.clause frames) = .ok found) :
    found.map Clause.label = (clauses.map Clause.label).map σ := by
  have hwritten : Forall₂ (fun target x => w.depth labels target = .ok x.label)
      (clauses.map Clause.label) catches :=
    forall₂_map_left_iff.mpr (hcatches.imp fun _ _ hc => hc.label)
  have hread : Forall₂ (fun x target => scope.label frames x.label = .ok target)
      catches (found.map Clause.label) :=
    forall₂_map_right_iff.mpr ((mapM_eq_ok_iff.mp h).imp fun _ _ => Scope.clause_label)
  exact eq_map_of_forall₂ hwritten hread fun _ _ _ => label_of_depth hlabels hframes

/-- What is read for an instruction that contains no sequence corresponds to it. -/
theorem Stands.corresponds (hlabels : labels.length ≤ 2 ^ 32) {i : Instr} (hclean : i.Clean)
    {x : Wire.Instr} (hx : w.Stands labels i x) {r next : Reading} {top : Frame} {outer : List Frame}
    (hframes : r.frames.map Frame.seq = labels.map σ) (h : step scope r top outer x = .ok next) :
    ∃ j, next = r.emit top j ∧ i.Corresponds σ j := by
  cases hx with
  | br hk | brIf hk =>
    obtain ⟨found, hfound, hnext⟩ := of_bind h
    cases hnext
    obtain rfl := label_of_depth hlabels hframes hk hfound
    exact ⟨_, rfl, rfl, rfl, rfl⟩
  | brTable hks hk =>
    obtain ⟨found, hfound, hnext⟩ := of_bind h
    obtain ⟨default, hdefault, hnext⟩ := of_bind hnext
    cases hnext
    obtain rfl := label_of_depth hlabels hframes hk hdefault
    have hall := eq_map_of_forall₂ hks (mapM_eq_ok_iff.mp hfound)
      fun _ _ _ => label_of_depth hlabels hframes
    refine ⟨_, rfl, rfl, rfl, ?_⟩
    rw [Instr.targets, Instr.targets, hall, map_append, map_singleton]
  | call | returnCall | refFunc | tableGet | tableSet | localGet | localSet | localTee | throw =>
    obtain ⟨found, -, hnext⟩ := of_bind h
    cases hnext
    exact ⟨_, rfl, rfl, rfl, rfl⟩
  | callIndirect | returnCallIndirect =>
    obtain ⟨found, -, hnext⟩ := of_bind h
    obtain ⟨found', -, hnext⟩ := of_bind hnext
    cases hnext
    exact ⟨_, rfl, rfl, rfl, rfl⟩
  | i32 | i64 | f32 | f64 | refNull | ret | unreachable =>
    cases h
    exact ⟨_, rfl, rfl, rfl, rfl⟩
  | raw =>
    cases (step_eq_ok (.plain (.raw hclean.2))).symm.trans h
    exact ⟨_, rfl, rfl, rfl, rfl⟩

variable {types : List Signature}

/-- One instruction: what is written for it reads as its copy, if nested code does. -/
theorem Shapes.echoes {N : SeqId → List Wire.Instr → Prop} {i : Instr} {part : List Wire.Instr}
    (h : w.Shapes types N labels i part) (hlabels : labels.length ≤ 2 ^ 32) (hi : i.Supplied p w.body)
    {new : SeqId → List SeqId}
    (hempty : ∀ id s, w.body.seqs[id]? = some s → s.instrs = [] → new id = [])
    (hnested : ∀ id ws, N id ws → ∃ s, w.body.seqs[id]? = some s ∧
      Echoes w.body σ scope (id :: labels) (new id) s.instrs ws) :
    Echoes w.body σ scope labels (i.opens new) [i] part := by
  cases h with
  | plain hx =>
    intro seqs top outer rest final hframes htop _ hrun
    obtain ⟨next, hstep, hrun⟩ := run_cons_eq_ok hrun
    obtain ⟨j, rfl, hj⟩ := hx.corresponds hlabels hi.clean hframes hstep
    have hnone := i.opens_perm new
    rw [hx.children, flatMap_nil, perm_nil] at hnone
    rw [hnone]
    exact ⟨[j], [], .cons hj .nil, .nil, by rwa [append_nil]⟩
  | block _ hws | loop _ hws =>
    obtain ⟨s, hs, hinner⟩ := hnested _ _ hws
    rw [Instr.opens_of_children rfl]
    refine hinner.sole hs fun seqs top outer next _ hstep => ?_
    obtain ⟨type, -, hnext⟩ := of_bind hstep
    cases hnext
    refine ⟨type, _, rfl, fun hid => ⟨rfl, ?_, rfl⟩⟩
    rw [← hid]
    rfl
  | @ifEmpty _ _ k _ _ _ hfirst ht hnil =>
    obtain ⟨s, hs, hfirst⟩ := hnested _ _ hfirst
    have hwhole := hfirst.ifElse hs ht (.inl ⟨rfl, hnil, hempty _ _ ht hnil⟩) k
    rwa [append_nil] at hwhole
  | @ifElse _ _ k _ second _ hfirst hsecond =>
    obtain ⟨s, hs, hfirst⟩ := hnested _ _ hfirst
    obtain ⟨t, ht, hsecond⟩ := hnested _ _ hsecond
    exact hfirst.ifElse hs ht (.inr ⟨second, rfl, hsecond⟩) k
  | @tryCatch _ _ k _ _ delegate _ hws hparts =>
    obtain ⟨s, hs, hinner⟩ := hnested _ _ hws
    refine hinner.tryCatch hs (forall₂_map_left_iff.mpr (hparts.imp ?_)) ?_ k
    · rintro ⟨tag, id⟩ part ⟨first, ws, hfirst, hws, rfl⟩
      obtain ⟨s, hs, hws⟩ := hnested _ _ hws
      refine ⟨first, ws, s, rfl, ?_, hs, hws⟩
      cases hfirst with
      | all => exact .inl rfl
      | tag => exact .inr ⟨_, rfl⟩
    · cases delegate with
      | none => exact .inl ⟨rfl, rfl⟩
      | some depth => exact .inr ⟨depth, rfl, hi.2.resolve_right (Option.some_ne_none depth)⟩
  | tryTable _ hcatches hws =>
    obtain ⟨s, hs, hinner⟩ := hnested _ _ hws
    rw [Instr.opens_of_children rfl]
    refine hinner.sole hs fun seqs top outer next hframes hstep => ?_
    obtain ⟨type, -, hnext⟩ := of_bind hstep
    obtain ⟨found, hfound, hnext⟩ := of_bind hnext
    cases hnext
    refine ⟨type, .tryTable seqs.length found, rfl, fun hid => ⟨rfl, ?_, ?_⟩⟩
    · rw [← hid]
      rfl
    · exact clauses_correspond hlabels hframes hcatches hfound

/-- The code of a sequence reads as copies of the instructions in it. -/
theorem Codes.echoes (hinstrs : ∀ s ∈ w.body.seqs, ∀ i ∈ s.instrs, i.Supplied p w.body) {bound : Nat}
    {id : SeqId} {ws : List Wire.Instr} (h : w.Codes types bound labels id ws)
    (hbound : labels.length + bound ≤ 2 ^ 32 + 1) : ∃ s, w.body.seqs[id]? = some s ∧
      Echoes w.body σ scope labels (w.body.opened bound id) s.instrs ws := by
  induction bound generalizing labels id ws with
  | zero => exact h.elim
  | succ bound ih =>
    obtain ⟨s, parts, hs, hparts, rfl⟩ := h
    rw [Body.opened_succ hs]
    refine ⟨s, hs, Echoes.flatten (((forall₂_and_left _ _).mpr ⟨fun i hi => hi, hparts⟩).imp ?_)⟩
    rintro i part ⟨hi, hpart⟩
    refine hpart.echoes (by omega) (hinstrs s (mem_of_getElem? hs) i hi)
      (fun _ _ ht hnil => Body.opened_of_empty ht hnil bound) fun inner ws hws => ?_
    exact ih hws (by rw [length_cons]; omega)

end Emitting

namespace Body

variable {b' b : Body} {σ : SeqId → SeqId}

/-- A body whose sequences hold the instructions that correspond to those of another, under other
names. -/
structure Copied (b : Body) (σ : SeqId → SeqId) (b' : Body) : Prop where
  entry : σ b.entry = b'.entry
  injective : ∀ id id', b.Reaches id → b.Reaches id' → σ id = σ id' → id = id'
  seqs : ∀ id, b.Reaches id → ∃ t, b'.seqs[σ id]? = some t ∧ b.Copies σ id t

theorem map_idxOf {ids : List SeqId} (h : ids.Nodup) :
    ids.map (ids.idxOf ·) = List.range ids.length := by
  refine ext_getElem (by simp) fun n hn hn' => ?_
  rw [getElem_map, getElem_range, h.idxOf_getElem]

/-- The code of a tree reads as a copy of the tree. -/
theorem copied_of_codes {w : Emitting} {types : List Signature} {p : Program} {scope : Scope} {type : TypeId}
    (htree : w.body.IsTree) (hinstrs : ∀ s ∈ w.body.seqs, ∀ i ∈ s.instrs, i.Supplied p w.body)
    (hsize : w.body.seqs.length < 2 ^ 32) {ws : List Wire.Instr}
    (hws : w.Codes types (w.body.seqs.length + 1) [w.body.entry] w.body.entry ws)
    (hentry : b'.entry = 0)
    (hrun : Reading.run scope (.initial type) (ws ++ [Emitting.close]) = .ok b'.seqs) :
    ∃ σ, w.body.Copied σ b' := by
  set ids := w.body.entry :: w.body.opened (w.body.seqs.length + 1) w.body.entry with hids
  have hall : ids.map (ids.idxOf ·) = List.range' 0 ids.length := by
    rw [map_idxOf htree.opened_nodup, range_eq_range']
  obtain ⟨hfirst, hothers⟩ := Reading.map_cons_eq_range' hall
  have hbound : [w.body.entry].length + (w.body.seqs.length + 1) ≤ 2 ^ 32 + 1 := by
    rw [length_singleton]
    omega
  obtain ⟨s, hs, hechoes⟩ := hws.echoes hinstrs hbound
  have hstart : Reading.run scope ⟨[] ++ ⟨.multi type, []⟩ :: [], ⟨0, .entry⟩ :: []⟩
      (ws ++ [Emitting.close]) = .ok b'.seqs := hrun
  obtain ⟨t, fresh, ht, hfresh, hdone⟩ := hechoes.enter hs hstart rfl hfirst rfl hothers
  have hcopies : Forall₂ (w.body.Copies (ids.idxOf ·)) ids b'.seqs :=
    Except.ok.inj hdone ▸ .cons ht hfresh
  refine ⟨(ids.idxOf ·), hfirst.trans hentry.symm, fun id id' hid hid' heq => ?_, fun id hid => ?_⟩
  · exact (idxOf_inj (htree.mem_opened hid)).mp heq
  · have hmem := htree.mem_opened hid
    obtain ⟨t, ht, hcopy⟩ := forall₂_getElem? hcopies (getElem?_idxOf hmem)
    exact ⟨t, ht, hcopy⟩

theorem Copied.instr? (h : b.Copied σ b') {seq : SeqId} (hseq : b.Reaches seq) {index : Nat}
    {i : Instr} (hi : b.instr? seq index = some i) :
    ∃ j, b'.instr? (σ seq) index = some j ∧ i.Corresponds σ j := by
  obtain ⟨t, ht, s, hs, hall⟩ := h.seqs seq hseq
  rw [instr?_of_seq hs] at hi
  rw [instr?_of_seq ht]
  exact forall₂_getElem? hall hi

/-- What encloses a sequence in a copy stands for what encloses the sequence that it is a copy of. -/
theorem Copied.path (h : b.Copied σ b') {seq : SeqId} {labels : List SeqId}
    (hpath : b.Path seq labels) : b'.Path (σ seq) (labels.map σ) := by
  induction hpath with
  | entry =>
    rw [map_singleton, h.entry]
    exact .entry
  | nested hseq hi hchild ih =>
    obtain ⟨j, hj, hcorresponds⟩ := h.instr? hseq.reaches hi
    refine ih.nested hj ?_
    rw [hcorresponds.children]
    exact mem_map_of_mem hchild

theorem forall₂_square {α β γ δ : Type} {R : α → β → Prop} {S : α → γ → Prop} {S' : β → δ → Prop}
    {T : γ → δ → Prop} {as : List α} {bs : List β} {cs : List γ} {ds : List δ}
    (h : Forall₂ R as bs) (hleft : Forall₂ S as cs) (hright : Forall₂ S' bs ds)
    (hT : ∀ a b c d, R a b → S a c → S' b d → T c d) : Forall₂ T cs ds := by
  induction h generalizing cs ds with
  | nil =>
    cases hleft
    cases hright
    exact .nil
  | cons hab _ ih =>
    cases hleft with
    | cons hac hleft =>
      cases hright with
      | cons hbd hright => exact .cons (hT _ _ _ _ hab hac hbd) (ih hleft hright)

theorem forall₂_zipIdx {α β : Type} {R : α → β → Prop} {as : List α} {bs : List β}
    (h : Forall₂ R as bs) (n : Nat) : Forall₂ (fun (x : α × Nat) (y : β × Nat) =>
      y.2 = x.2 ∧ R x.1 y.1) (as.zipIdx n) (bs.zipIdx n) := by
  induction h generalizing n with
  | nil => exact .nil
  | cons hab _ ih => exact .cons ⟨rfl, hab⟩ (ih (n + 1))

/-- The walks through a body and a copy of it meet what corresponds to each other. -/
theorem Copied.walkSeq (h : b.Copied σ b') {bound bound' : Nat} {id : SeqId} (hid : b.Reaches id)
    {visits visits' : List Visit} (hwalk : b.walkSeq bound id = .ok visits)
    (hwalk' : b'.walkSeq bound' (σ id) = .ok visits') :
    Forall₂ (fun v v' => v'.seq = σ v.seq ∧ v'.index = v.index ∧ v.instr.Corresponds σ v'.instr)
      visits visits' := by
  induction bound generalizing bound' id visits visits' with
  | zero => cases hwalk
  | succ bound ih =>
    cases bound' with
    | zero => cases hwalk'
    | succ bound' =>
      obtain ⟨s, parts, hs, rfl, hparts⟩ := walkSeq_succ_eq_ok_iff.mp hwalk
      obtain ⟨t, parts', ht, rfl, hparts'⟩ := walkSeq_succ_eq_ok_iff.mp hwalk'
      obtain ⟨_, ht', _, hs', hcopies⟩ := h.seqs id hid
      cases hs.symm.trans hs'
      cases ht.symm.trans ht'
      have hentries := (forall₂_and_left _ _).mpr
        ⟨fun (entry : Instr × Nat) hentry => hentry, forall₂_zipIdx hcopies 0⟩
      refine rel_flatten (forall₂_square hentries hparts hparts' ?_)
      rintro ⟨i, _⟩ ⟨j, index⟩ _ _ ⟨hmem, rfl, hij⟩ ⟨nested, hnested, rfl⟩ ⟨nested', hnested', rfl⟩
      refine .cons ⟨rfl, rfl, hij⟩ (rel_flatten ?_)
      have hi : b.instr? id index = some i := by
        rw [instr?_of_seq hs, mk_mem_zipIdx_iff_getElem?.mp hmem]
      have hchildren : Forall₂ (fun child child' => child ∈ i.children ∧ child' = σ child)
          i.children j.children := by
        rw [hij.children, forall₂_map_right_iff]
        exact forall₂_same.mpr fun child hchild => ⟨hchild, rfl⟩
      refine forall₂_square hchildren hnested hnested' ?_
      rintro child _ vs vs' ⟨hchild, rfl⟩ hvs hvs'
      exact ih (ReachesFrom.trans hid (.step hi hchild (.refl child))) hvs hvs'

end Body

end HostCatch
