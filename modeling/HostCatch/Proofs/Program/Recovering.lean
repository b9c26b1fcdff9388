import HostCatch.Proofs.Program.Closed

namespace HostCatch

open List

namespace Wire

open Reader

/-- An instruction that is read again from its bytes, if the format can say how many these are. -/
def Instr.Spellable (i : Instr) : Prop :=
  ∀ w, Wire.instr i = .ok w → w.length < 2 ^ 32 → i.Spelled

theorem Instr.Spelled.spellable {i : Instr} (h : i.Spelled) : i.Spellable :=
  fun _ _ _ => h

/-- Code that can be spelled is read as it was written. -/
theorem decodeInstrs_of_spellable {is : List Instr} (h : ∀ i ∈ is, i.Spellable) {w : Bytes}
    (hw : encodeInstrs is = .ok w) (hlength : w.length < 2 ^ 32) : decodeInstrs w = .ok is := by
  have hall : ∀ {is w}, encodeInstrs is = .ok w → w.length < 2 ^ 32 → (∀ i ∈ is, i.Spellable) →
      ∀ i ∈ is, i.Spelled := by
    intro is
    induction is with
    | nil => exact fun _ _ _ i hi => absurd hi not_mem_nil
    | cons i is ih =>
      intro w hw hlength h
      obtain ⟨first, hfirst, hw⟩ := of_bind hw
      obtain ⟨others, hothers, hw⟩ := of_bind hw
      cases hw
      rw [length_append] at hlength
      obtain ⟨hi, his⟩ := forall_mem_cons.mp h
      refine forall_mem_cons.mpr ⟨hi first hfirst (by omega), ?_⟩
      exact ih hothers (by omega) his
  obtain ⟨w', hw', hread⟩ := decodeInstrs_encodeInstrs (hall hw hlength h)
  cases hw.symm.trans hw'
  exact hread

theorem brTable_spellable (labels : List UInt32) (default : UInt32) :
    Instr.Spellable ⟨0x0E, .brTable labels default⟩ := by
  intro w hw hlength
  cases hw
  refine (Imm.brTable_spelled ?_ default).instr rfl
  have hlist : (list Leb128.u32 labels).length < 2 ^ 32 := by
    simp only [length_cons, length_append] at hlength
    omega
  exact length_lt_of_list (fun i _ => Leb128.u32_ne_nil i) hlist

theorem tryTable_spellable (type : Int32) {catches : List CatchClause}
    (h : ∀ c ∈ catches, CatchClause.takesTag c.kind = false → c.tag = 0) :
    Instr.Spellable ⟨0x1F, .tryTable type catches⟩ := by
  intro w hw hlength
  cases hw
  have hlist : (list catchClause catches).length < 2 ^ 32 := by
    simp only [length_cons, length_append] at hlength
    omega
  have hcount := length_lt_of_list (fun c _ => cons_ne_nil c.kind _) hlist
  exact (Imm.tryTable_spelled type hcount fun c hc => catchClause_spells (h c hc)).instr rfl

end Wire

namespace Reading

variable {scope : Scope} {seqs : List Seq} {top : Frame} {outer frames : List Frame}
  {next : Reading} {i : Wire.Instr}

theorem run_step (h : Step scope ⟨seqs, top :: outer⟩ top outer i next) (is : List Wire.Instr) :
    run scope ⟨seqs, top :: outer⟩ (i :: is) = run scope next is := by
  rw [run, step_eq_ok h, ok_bind]

/-- Instructions can be read to the end of a body. -/
def Reads (scope : Scope) (r : Reading) (is : List Wire.Instr) : Prop :=
  ∃ final, run scope r is = .ok final

theorem reads_of_step (h : Step scope ⟨seqs, top :: outer⟩ top outer i next) (is : List Wire.Instr) :
    Reads scope ⟨seqs, top :: outer⟩ (i :: is) ↔ Reads scope next is := by
  rw [Reads, run_step h, Reads]

theorem not_reads_of_step {fault : Fault}
    (h : step scope ⟨seqs, top :: outer⟩ top outer i = .error fault) (is : List Wire.Instr) :
    ¬ Reads scope ⟨seqs, top :: outer⟩ (i :: is) := by
  rintro ⟨final, hrun⟩
  rw [run, h] at hrun
  cases hrun

/-- Behind `ws`, which was read inside some frames, reading goes on inside frames that `Q` describes,
exactly if `ok` holds. -/
structure Leads (scope : Scope) (frames : List Frame) (ok : Prop) (ws : List Wire.Instr)
    (Q : List Frame → Prop) : Prop where
  spellable : ∀ i ∈ ws, i.Spellable
  reads : ∀ seqs, ∃ seqs' frames', Q frames' ∧ ∀ rest,
    Reads scope ⟨seqs, frames⟩ (ws ++ rest) ↔ ok ∧ Reads scope ⟨seqs', frames'⟩ rest

namespace Leads

variable {ok ok' : Prop} {ws ws' : List Wire.Instr} {Q Q' : List Frame → Prop} {i : Wire.Instr}

theorem congr (h : Leads scope frames ok ws Q) (hok : ok ↔ ok') : Leads scope frames ok' ws Q :=
  propext hok ▸ h

theorem mono (h : Leads scope frames ok ws Q) (hQ : ∀ frames', Q frames' → Q' frames') :
    Leads scope frames ok ws Q' where
  spellable := h.spellable
  reads := by
    intro seqs
    obtain ⟨seqs', frames', hfound, hread⟩ := h.reads seqs
    exact ⟨seqs', frames', hQ frames' hfound, hread⟩

theorem nil (scope : Scope) (frames : List Frame) : Leads scope frames True [] (· = frames) where
  spellable := fun i hi => absurd hi not_mem_nil
  reads := fun seqs => ⟨seqs, frames, rfl, fun rest => by rw [nil_append, true_and]⟩

theorem append (h : Leads scope frames ok ws Q)
    (h' : ∀ frames', Q frames' → Leads scope frames' ok' ws' Q') :
    Leads scope frames (ok ∧ ok') (ws ++ ws') Q' where
  spellable := by
    obtain ⟨-, frames', hQ, -⟩ := h.reads []
    exact forall_mem_append.mpr ⟨h.spellable, (h' frames' hQ).spellable⟩
  reads := by
    intro seqs
    obtain ⟨seqs', frames', hQ, hfirst⟩ := h.reads seqs
    obtain ⟨seqs'', frames'', hQ', hsecond⟩ := (h' frames' hQ).reads seqs'
    refine ⟨seqs'', frames'', hQ', fun rest => ?_⟩
    rw [append_assoc, hfirst, hsecond, and_assoc]

theorem step (hi : i.Spellable) (h : ∀ seqs, ∃ next,
    Step scope ⟨seqs, top :: outer⟩ top outer i next ∧ Q next.frames) :
    Leads scope (top :: outer) True [i] Q where
  spellable := forall_mem_singleton.mpr hi
  reads := by
    intro seqs
    obtain ⟨next, hstep, hQ⟩ := h seqs
    refine ⟨next.seqs, next.frames, hQ, fun rest => ?_⟩
    rw [singleton_append, reads_of_step hstep, true_and]

theorem refused (frames : List Frame) (hi : i.Spellable) (hQ : Q frames) (h : ∀ seqs, ∃ fault,
    Reading.step scope ⟨seqs, top :: outer⟩ top outer i = .error fault) :
    Leads scope (top :: outer) False [i] Q where
  spellable := forall_mem_singleton.mpr hi
  reads := by
    intro seqs
    obtain ⟨fault, hstep⟩ := h seqs
    refine ⟨seqs, frames, hQ, fun rest => ?_⟩
    rw [singleton_append, false_and, iff_false]
    exact not_reads_of_step hstep rest

/-- A construct opens exactly if its type can be read. -/
theorem opening {t : Int32} {P : Frame → Prop} {f : Frame} (hf : P f) (hi : i.Spellable)
    (hopen : ∀ seqs type, scope.blockType t = .ok type → ∃ seqs' f',
      Step scope ⟨seqs, top :: outer⟩ top outer i ⟨seqs', f' :: top :: outer⟩ ∧ P f')
    (hstep : ∀ seqs, ∃ g,
      Reading.step scope ⟨seqs, top :: outer⟩ top outer i = scope.blockType t >>= g) :
    Leads scope (top :: outer) (∃ type, scope.blockType t = .ok type) [i] fun frames =>
      ∃ f, frames = f :: top :: outer ∧ P f := by
  cases htype : scope.blockType t with
  | ok type =>
    refine (step hi fun seqs => ?_).congr (by simp)
    obtain ⟨seqs', f', hopened, hf'⟩ := hopen seqs type htype
    exact ⟨_, hopened, f', rfl, hf'⟩
  | error fault =>
    refine (refused (f :: top :: outer) hi ⟨f, rfl, hf⟩ fun seqs => ?_).congr (by simp)
    obtain ⟨g, hg⟩ := hstep seqs
    exact ⟨fault, hg.trans (by rw [htype]; rfl)⟩

theorem close (f : Frame) (frames : List Frame) :
    Leads scope (f :: frames) True [Emitting.close] (· = frames) := by
  refine step (Wire.Imm.none_spelled.instr rfl).spellable fun seqs => ⟨_, .done .none, ?_⟩
  unfold Reading.close
  split <;> rfl

end Leads

/-- Whatever the `n` frames are inside of which `ws` is read, reading goes on inside the same frames,
exactly if `ok` holds. -/
def Recovers (scope : Scope) (n : Nat) (ok : Prop) (ws : List Wire.Instr) : Prop :=
  ∀ frames : List Frame, frames.length = n → Leads scope frames ok ws (· = frames)

namespace Recovers

variable {n : Nat} {ok ok' : Prop} {ws ws' : List Wire.Instr}

theorem congr (h : Recovers scope n ok ws) (hok : ok ↔ ok') : Recovers scope n ok' ws :=
  fun frames hframes => (h frames hframes).congr hok

theorem append (h : Recovers scope n ok ws) (h' : Recovers scope n ok' ws') :
    Recovers scope n (ok ∧ ok') (ws ++ ws') := by
  intro frames hframes
  refine (h frames hframes).append ?_
  rintro _ rfl
  exact h' _ hframes

theorem flatten {α : Type} {P : α → Prop} {as : List α} {parts : List (List Wire.Instr)}
    (h : Forall₂ (fun a ws => Recovers scope n (P a) ws) as parts) :
    Recovers scope n (∀ a ∈ as, P a) parts.flatten := by
  induction h with
  | nil => exact fun frames _ => (Leads.nil scope frames).congr (by simp)
  | cons ha _ ih =>
    rw [flatten_cons]
    exact (ha.append ih).congr forall_mem_cons.symm

theorem single (hi : i.Spellable) (hn : 0 < n)
    (hread : ok → ∀ frames : List Frame, frames.length = n → ∃ j, scope.Plain frames i j)
    (hfail : ¬ ok → ∀ r top outer, ∃ fault, step scope r top outer i = .error fault) :
    Recovers scope n ok [i] := by
  intro frames hframes
  obtain ⟨top, outer, rfl⟩ := exists_cons_of_length_pos (hframes.symm ▸ hn)
  by_cases hok : ok
  · obtain ⟨j, hj⟩ := hread hok _ hframes
    refine (Leads.step hi fun seqs => ⟨_, .plain hj, rfl⟩).congr ?_
    exact ⟨fun _ => hok, fun _ => trivial⟩
  · have hnone : Leads scope (top :: outer) False [i] (· = top :: outer) :=
      .refused _ hi rfl fun seqs => hfail hok _ _ _
    exact hnone.congr ⟨False.elim, hok⟩

theorem plain (hi : i.Spellable) (hn : 0 < n)
    (hread : ∀ frames : List Frame, frames.length = n → ∃ j, scope.Plain frames i j) :
    Recovers scope n True [i] :=
  single hi hn (fun _ => hread) fun hfalse => absurd trivial hfalse

theorem lookup {α : Type} {x : Except Fault α} (hi : i.Spellable) (hn : 0 < n)
    (hstep : ∀ r top outer, ∃ f : α → Except Fault Reading, step scope r top outer i = x >>= f)
    (hread : ok → ∀ frames : List Frame, frames.length = n → ∃ j, scope.Plain frames i j)
    (hfail : ¬ ok → ∃ fault, x = .error fault) : Recovers scope n ok [i] := by
  refine single hi hn hread fun hnot r top outer => ?_
  obtain ⟨f, hf⟩ := hstep r top outer
  obtain ⟨fault, rfl⟩ := hfail hnot
  exact ⟨fault, hf⟩

/-- A construct is opened, and reading goes on inside the frames around it behind its code. -/
theorem construct {P : Frame → Prop} (hn : 0 < n)
    (hopen : ∀ top outer, outer.length + 1 = n → Leads scope (top :: outer) ok [i]
      fun frames => ∃ f, frames = f :: top :: outer ∧ P f)
    (hinner : ∀ f frames, frames.length = n → P f → Leads scope (f :: frames) ok' ws (· = frames)) :
    Recovers scope n (ok ∧ ok') (i :: ws) := by
  intro frames hframes
  obtain ⟨top, outer, rfl⟩ := exists_cons_of_length_pos (hframes.symm ▸ hn)
  refine (hopen top outer hframes).append ?_
  rintro _ ⟨f, rfl, hf⟩
  exact hinner f _ hframes hf

theorem closed (h : Recovers scope (n + 1) ok ws) {f : Frame} (hframes : frames.length = n) :
    Leads scope (f :: frames) ok (ws ++ [Emitting.close]) (· = frames) := by
  have hwhole : Leads scope (f :: frames) (ok ∧ True) (ws ++ [Emitting.close]) (· = frames) := by
    refine (h (f :: frames) (congrArg (· + 1) hframes)).append ?_
    rintro _ rfl
    exact .close f frames
  exact hwhole.congr (by rw [and_true])

end Recovers

namespace Leads

variable {t : Int32}

theorem block : Leads scope (top :: outer) (∃ type, scope.blockType t = .ok type)
    [⟨0x02, .block t⟩] fun frames => ∃ f, frames = f :: top :: outer ∧ True :=
  opening (f := top) trivial ((Wire.Imm.block_spelled t).instr rfl).spellable
    (fun _ _ htype => ⟨_, _, .block htype, trivial⟩) fun _ => ⟨_, rfl⟩

theorem loop : Leads scope (top :: outer) (∃ type, scope.blockType t = .ok type)
    [⟨0x03, .block t⟩] fun frames => ∃ f, frames = f :: top :: outer ∧ True :=
  opening (f := top) trivial ((Wire.Imm.block_spelled t).instr rfl).spellable
    (fun _ _ htype => ⟨_, _, .loop htype, trivial⟩) fun _ => ⟨_, rfl⟩

theorem ifElse : Leads scope (top :: outer) (∃ type, scope.blockType t = .ok type)
    [⟨0x04, .block t⟩] fun frames => ∃ f, frames = f :: top :: outer ∧
      ∃ alternative, f.role = .consequent alternative :=
  opening (f := ⟨0, .consequent 0⟩) ⟨0, rfl⟩ ((Wire.Imm.block_spelled t).instr rfl).spellable
    (fun _ _ htype => ⟨_, _, .ifElse htype, _, rfl⟩) fun _ => ⟨_, rfl⟩

theorem orElse {alternative : SeqId} (h : top.role = .consequent alternative) :
    Leads scope (top :: outer) True [⟨0x05, .none⟩] fun frames => ∃ f, frames = f :: outer :=
  step (Wire.Imm.none_spelled.instr rfl).spellable fun _ => ⟨_, .orElse .none h, _, rfl⟩

theorem tryCatch : Leads scope (top :: outer) (∃ type, scope.blockType t = .ok type)
    [⟨0x06, .block t⟩] fun frames => ∃ f, frames = f :: top :: outer ∧ f.role = .tried :=
  opening (f := ⟨0, .tried⟩) rfl ((Wire.Imm.block_spelled t).instr rfl).spellable
    (fun _ _ htype => ⟨_, _, .tryCatch htype, rfl⟩) fun _ => ⟨_, rfl⟩

theorem tryTable {catches : List Wire.CatchClause}
    (htags : ∀ c ∈ catches, Wire.CatchClause.takesTag c.kind = false → c.tag = 0)
    (hcatches : ∃ found, catches.mapM (scope.clause (top :: outer)) = .ok found) :
    Leads scope (top :: outer) (∃ type, scope.blockType t = .ok type) [⟨0x1F, .tryTable t catches⟩]
      fun frames => ∃ f, frames = f :: top :: outer ∧ True := by
  obtain ⟨clauses, hclauses⟩ := hcatches
  exact opening (f := top) trivial (Wire.tryTable_spellable t htags)
    (fun _ _ htype => ⟨_, _, .tryTable htype hclauses, trivial⟩) fun _ => ⟨_, rfl⟩

theorem delegate (depth : UInt32) (h : top.role = .tried) :
    Leads scope (top :: outer) True [⟨0x18, .branch depth⟩] (· = outer) := by
  refine step ((Wire.Imm.branch_spelled depth).instr rfl).spellable fun seqs => ⟨_, .delegate h, ?_⟩
  unfold Reading.close
  split <;> rfl

theorem no_delegate (depth : UInt32) {tried : SeqId} {before : List Handler}
    (h : top.role = .handler tried before) :
    Leads scope (top :: outer) False [⟨0x18, .branch depth⟩] (· = outer) := by
  obtain ⟨seq, role⟩ := top
  obtain rfl : role = .handler tried before := h
  exact refused outer ((Wire.Imm.branch_spelled depth).instr rfl).spellable rfl fun _ => ⟨_, rfl⟩

end Leads

/-- What is written for a handler: its first instruction and its code. -/
def Catching (scope : Scope) (n : Nat) (ok : Prop) (part : List Wire.Instr) : Prop :=
  ∃ first ws tag, part = first :: ws ∧ first.Spellable ∧ scope.Catches first tag ∧
    Recovers scope n ok ws

/-- Behind the handlers of a `try` the frame is that of the last handler, or of the `try` itself. -/
theorem Leads.handlers {ok : SeqId → Prop} {handlers : List Handler}
    {parts : List (List Wire.Instr)} (h : Forall₂ (fun handler part =>
      Catching scope (outer.length + 1) (ok handler.seq) part) handlers parts) {tried : SeqId}
    {before : List Handler} (htop : top.Handles tried before) :
    Leads scope (top :: outer) (∀ handler ∈ handlers, ok handler.seq) parts.flatten fun frames =>
      ∃ f, frames = f :: outer ∧ (handlers = [] → f = top) ∧
        (handlers ≠ [] → ∃ tried before, f.role = .handler tried before) := by
  induction h generalizing top tried before with
  | nil =>
    refine ((nil scope (top :: outer)).mono ?_).congr (by simp)
    rintro _ rfl
    exact ⟨top, rfl, fun _ => rfl, fun hne => absurd rfl hne⟩
  | @cons handler part handlers parts hpart _ ih =>
    obtain ⟨first, ws, tag, rfl, hfirst, hcatches, hws⟩ := hpart
    have hopened : Leads scope (top :: outer) True [first] fun frames => ∃ f tried before,
        frames = f :: outer ∧ f.role = .handler tried before :=
      step hfirst fun seqs => ⟨_, .handler hcatches htop, _, _, _, rfl, rfl⟩
    have hothers : ∀ frames, (∃ f tried before, frames = f :: outer ∧
        f.role = .handler tried before) → Leads scope frames (ok handler.seq ∧
          ∀ handler ∈ handlers, ok handler.seq) (ws ++ parts.flatten) fun frames =>
          ∃ f tried before, frames = f :: outer ∧ f.role = .handler tried before := by
      rintro _ ⟨f, tried, before, rfl, hrole⟩
      refine (hws (f :: outer) rfl).append ?_
      rintro _ rfl
      refine (ih (.handler hrole)).mono ?_
      rintro _ ⟨g, rfl, hsame, hlast⟩
      by_cases hnil : handlers = []
      · exact ⟨g, tried, before, rfl, hsame hnil ▸ hrole⟩
      · obtain ⟨tried, before, hrole⟩ := hlast hnil
        exact ⟨g, tried, before, rfl, hrole⟩
    rw [flatten_cons, cons_append, forall_mem_cons, ← true_and (ok handler.seq ∧ _)]
    refine (hopened.append hothers).mono ?_
    rintro _ ⟨f, tried, before, rfl, hrole⟩
    exact ⟨f, rfl, fun hnil => absurd hnil (cons_ne_nil _ _), fun _ => ⟨tried, before, hrole⟩⟩

namespace Recovers

variable {n : Nat} {ok ok' : Prop} {t : Int32} {ws ws' : List Wire.Instr}
  {id : SeqId} {handlers : List Handler} {parts : List (List Wire.Instr)}

theorem ifElse (hn : 0 < n) (h : Recovers scope (n + 1) ok ws)
    (h' : (ws' = [] ∧ ok') ∨ ∃ inner, ws' = ⟨0x05, .none⟩ :: inner ∧
      Recovers scope (n + 1) ok' inner) :
    Recovers scope n ((∃ type, scope.blockType t = .ok type) ∧ ok ∧ ok')
      (⟨0x04, .block t⟩ :: (ws ++ (ws' ++ [Emitting.close]))) := by
  refine construct hn (fun top outer _ => .ifElse) fun f frames hframes hrole => ?_
  obtain ⟨alternative, hrole⟩ := hrole
  refine (h (f :: frames) (congrArg (· + 1) hframes)).append ?_
  rintro _ rfl
  obtain ⟨rfl, hok⟩ | ⟨inner, rfl, hinner⟩ := h'
  · exact (Leads.close f frames).congr ⟨fun _ => hok, fun _ => trivial⟩
  · rw [← true_and ok', cons_append]
    refine (Leads.orElse hrole).append ?_
    rintro _ ⟨g, rfl⟩
    exact hinner.closed hframes

theorem tryCatch {ok : SeqId → Prop} {last : Prop} {ending : Wire.Instr} (hn : 0 < n)
    (h : Recovers scope (n + 1) (ok id) ws)
    (hparts : Forall₂ (fun handler part =>
      Catching scope (n + 1) (ok handler.seq) part) handlers parts)
    (hending : ∀ f frames, (handlers = [] → f.role = .tried) →
      (handlers ≠ [] → ∃ tried before, f.role = .handler tried before) →
      Leads scope (f :: frames) last [ending] (· = frames)) :
    Recovers scope n ((∃ type, scope.blockType t = .ok type) ∧ ok id ∧
      (∀ handler ∈ handlers, ok handler.seq) ∧ last)
      (⟨0x06, .block t⟩ :: (ws ++ (parts.flatten ++ [ending]))) := by
  refine construct hn (fun top outer _ => .tryCatch) fun f frames hframes hrole => ?_
  refine (h (f :: frames) (congrArg (· + 1) hframes)).append ?_
  rintro _ rfl
  subst hframes
  refine (Leads.handlers hparts (.tried hrole)).append ?_
  rintro _ ⟨g, rfl, hsame, hlast⟩
  exact hending g frames (fun hnil => hsame hnil ▸ hrole) hlast

theorem tryCatch_closed {ok : SeqId → Prop} (hn : 0 < n) (h : Recovers scope (n + 1) (ok id) ws)
    (hparts : Forall₂ (fun handler part => Catching scope (n + 1) (ok handler.seq) part)
      handlers parts) :
    Recovers scope n ((∃ type, scope.blockType t = .ok type) ∧ ok id ∧
      ∀ handler ∈ handlers, ok handler.seq)
      (⟨0x06, .block t⟩ :: (ws ++ (parts.flatten ++ [Emitting.close]))) :=
  (tryCatch hn h hparts fun f frames _ _ => .close f frames).congr (by rw [and_true])

/-- A `try` that passes exceptions on cannot be read if it has handlers. -/
theorem tryCatch_delegated {ok : SeqId → Prop} (hn : 0 < n) (h : Recovers scope (n + 1) (ok id) ws)
    (hparts : Forall₂ (fun handler part => Catching scope (n + 1) (ok handler.seq) part)
      handlers parts) (depth : UInt32) :
    Recovers scope n ((∃ type, scope.blockType t = .ok type) ∧ ok id ∧
      (∀ handler ∈ handlers, ok handler.seq) ∧ handlers = [])
      (⟨0x06, .block t⟩ :: (ws ++ (parts.flatten ++ [⟨0x18, .branch depth⟩]))) := by
  refine tryCatch hn h hparts fun f frames htried hhandler => ?_
  by_cases hnil : handlers = []
  · exact (Leads.delegate depth (htried hnil)).congr (iff_of_true trivial hnil)
  · obtain ⟨tried, before, hrole⟩ := hhandler hnil
    exact (Leads.no_delegate depth hrole).congr (iff_of_false not_false hnil)

end Recovers

end Reading

end HostCatch
