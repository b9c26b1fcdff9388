import HostCatch.Command.Picker
import HostCatch.Proofs.Guard.Selecting
import Mathlib.Data.List.Induction

namespace HostCatch

open List

/-- The module was read. -/
def Message.loads : Message → Bool
  | loaded (.ok _) => true
  | _ => false

/-- Wrapping has ended. -/
def Message.finishes : Message → Bool
  | wrapped _ => true
  | _ => false

theorem Program.choices_unchecked (p : Program) {c : Choice} (h : c ∈ p.choices) : c.checked = false := by
  obtain ⟨i, -, hi⟩ := mem_filterMap.mp (mem_mergeSort.mp h)
  obtain ⟨_, -, hi⟩ := Option.bind_eq_some_iff.mp hi
  obtain ⟨_, -, hi⟩ := Option.bind_eq_some_iff.mp hi
  obtain ⟨_, -, hi⟩ := Option.bind_eq_some_iff.mp hi
  cases hi
  rfl

namespace Picker

variable {p q : Picker} {m : Message} {text : String}

/-- One step with a text field that holds `text` after the messages that it is told. -/
def answer (p : Picker) (text : String) : Message → Picker × Option Request
  | .key .backspace => (p.refilter text, none)
  | .key (.typed _) => (p.refilter text, none)
  | .retyped _ => (p.refilter text, none)
  | message => p.update message

theorem update_eq_answer (p : Picker) (m : Message) : ∃ text, p.update m = p.answer text m := by
  cases m with
  | key key =>
    cases key with
    | backspace | typed _ => exact ⟨_, rfl⟩
    | _ => exact ⟨"", rfl⟩
  | retyped text => exact ⟨text, rfl⟩
  | _ => exact ⟨"", rfl⟩

/-- The picker once it is told messages, each with what the text field holds after it. -/
def told (o : Options) (events : List (Message × String)) : Picker :=
  events.foldl (fun p e => (p.answer e.2 e.1).1) { options := o }

/-- The cursor is at a choice that is shown, or at the top. -/
def Placed (p : Picker) : Prop :=
  p.cursor = 0 ∨ p.cursor < p.visible.length

theorem visible_congr (hfilter : p.filter = q.filter)
    (htexts : p.choices.map Choice.text = q.choices.map Choice.text) : p.visible = q.visible := by
  have heq (p : Picker) : p.visible = (p.choices.map Choice.text).zipIdx.filterMap fun e =>
      if hasInfix (lowerText p.filter).toList (lowerText e.1).toList then some e.2 else none := by
    rw [zipIdx_map, filterMap_map]
    rfl
  rw [heq p, heq q, hfilter, htexts]

/-- The choice under the cursor is flipped, and no other. -/
theorem toggle_choices (p : Picker) : p.toggle.choices =
    p.choices.mapIdx fun i c => if p.visible[p.cursor]? = some i then c.flip else c := by
  unfold toggle
  split
  next hnone => exact ext_getElem? fun k => by simp [hnone]
  next i hi =>
    have hmodify : (p.choices?.map fun cs => cs.modify i Choice.flip).getD [] =
        p.choices.modify i Choice.flip := by
      unfold choices
      cases p.choices? <;> simp
    refine ext_getElem? fun k => ?_
    rw [choices, hmodify, getElem?_modify, getElem?_mapIdx, hi]
    simp

theorem toggle_visible (p : Picker) : p.toggle.visible = p.visible := by
  refine visible_congr ?_ ?_
  · unfold toggle
    split <;> rfl
  · rw [toggle_choices]
    refine ext_getElem? fun k => ?_
    simp only [getElem?_map, getElem?_mapIdx, Option.map_map]
    congr 1
    funext c
    simp only [Function.comp]
    split <;> rfl

theorem Placed.refilter (h : p.Placed) (text : String) : (p.refilter text).Placed := by
  unfold Picker.refilter
  split
  next => exact h
  next =>
    by_cases hshown : ({ p with filter := text } : Picker).visible.length = 0
    · exact .inl (by simp [hshown])
    · exact .inr (show min _ _ < ({ p with filter := text } : Picker).visible.length by omega)

/-- No answer takes the cursor off what is shown. -/
theorem Placed.answer (h : p.Placed) (hload : m.loads = true → p.choices? = none) (text : String) :
    (p.answer text m).1.Placed := by
  cases m with
  | key key =>
    cases key with
    | up =>
      rcases h with hzero | hlt
      · exact .inl (show p.cursor - 1 = 0 by omega)
      · exact .inr (Nat.lt_of_le_of_lt (Nat.sub_le _ _) hlt)
    | down =>
      dsimp only [Picker.answer, update, press]
      split
      next hlt => exact .inr hlt
      next => exact h
    | space =>
      dsimp only [Picker.answer, update, press]
      split
      next => exact h
      next =>
        have hcursor : p.toggle.cursor = p.cursor := by
          unfold toggle
          split <;> rfl
        rwa [Placed, toggle_visible, hcursor]
    | enter =>
      dsimp only [Picker.answer, update, press]
      split <;> exact h
    | leave => exact h
    | backspace | typed _ => exact h.refilter text
  | retyped _ => exact h.refilter text
  | loaded result =>
    cases result with
    | error fault => exact h
    | ok module =>
      have hnone : p.visible = [] := by simp [visible, choices, hload rfl]
      exact .inl (h.resolve_right (by simp [hnone]))
  | wrapped result => cases result <;> exact h

/-- The choices are touched only by a module that is read and by the space bar. -/
theorem answer_frame (p : Picker) (m : Message) (text : String) :
    (p.answer text m).1.options = p.options ∧ (p.answer text m).1.done = (p.done || m.finishes) ∧
      (m.loads = false → (m = .key .space → p.done = true) →
        (p.answer text m).1.choices? = p.choices?) := by
  have hrefilter : (p.refilter text).options = p.options ∧ (p.refilter text).done = p.done ∧
      (p.refilter text).choices? = p.choices? := by
    unfold refilter
    split <;> exact ⟨rfl, rfl, rfl⟩
  have htoggle : p.toggle.options = p.options ∧ p.toggle.done = p.done := by
    unfold toggle
    split <;> exact ⟨rfl, rfl⟩
  cases m with
  | key key =>
    cases key with
    | backspace | typed _ => simp [answer, Message.finishes, hrefilter]
    | up | leave => simp [answer, update, press, Message.finishes]
    | _ =>
      dsimp only [answer, update, press]
      split <;> simp_all [Message.finishes]
  | retyped _ => simp [answer, Message.finishes, hrefilter]
  | loaded result => cases result <;> simp [answer, update, load, Message.finishes, Message.loads]
  | wrapped result => cases result <;> simp [answer, update, Message.finishes]

theorem answer_none (h : p.choices? = none) (hload : m.loads = false) (text : String) :
    (p.answer text m).1.choices? = none := by
  by_cases hspace : m = .key .space → p.done = true
  · rw [(answer_frame p m text).2.2 hload hspace, h]
  · obtain ⟨rfl, hdone⟩ := Classical.not_imp.mp hspace
    have htoggle : p.toggle.choices? = none := by
      unfold toggle
      split <;> simp [h]
    exact (congrArg choices? (if_neg hdone)).trans htoggle

variable {o : Options} {before : List (Message × String)}

theorem told_concat (o : Options) (before : List (Message × String)) (e : Message × String) :
    told o (before ++ [e]) = ((told o before).answer e.2 e.1).1 := by
  simp [told]

theorem told_rest (o : Options) (before : List (Message × String)) : (told o before).options = o ∧
    (told o before).done = before.any fun e => e.1.finishes := by
  induction before using List.reverseRecOn with
  | nil => exact ⟨rfl, rfl⟩
  | append_singleton before e ih =>
    obtain ⟨hoptions, hdone, -⟩ := answer_frame (told o before) e.1 e.2
    rw [told_concat, hoptions, hdone, ih.1, ih.2]
    simp

/-- As long as the module is read once at most, the cursor stays where something is shown. Until then
there is nothing to be shown. -/
theorem told_placed (h : before.countP (fun e => e.1.loads) ≤ 1) : (told o before).Placed ∧
    (before.countP (fun e => e.1.loads) = 0 → (told o before).choices? = none) := by
  induction before using List.reverseRecOn with
  | nil => exact ⟨.inl rfl, fun _ => rfl⟩
  | append_singleton before e ih =>
    rw [countP_append, countP_singleton] at h ⊢
    obtain ⟨hplaced, hnone⟩ := ih (by omega)
    rw [told_concat]
    cases hload : e.1.loads with
    | true =>
      rw [hload, if_pos rfl] at h
      exact ⟨hplaced.answer (fun _ => hnone (by omega)) e.2, fun hzero => absurd hzero (by simp)⟩
    | false =>
      refine ⟨hplaced.answer (fun htrue => ?_) e.2, fun hzero => answer_none (hnone hzero) hload e.2⟩
      cases hload.symm.trans htrue

theorem load_choices (p : Picker) (data : Bytes) (q : Program) : (p.load data q.choices).choices =
    q.choices.map fun c => { c with
      checked := (Pattern.ofList p.options.patterns).any (Pattern.accepts c.module c.name) } := by
  unfold load
  dsimp only [choices, Option.getD_some]
  split
  next hempty =>
    rw [hempty]
    refine (map_id _).symm.trans (map_congr_left fun c hc => ?_)
    have hnone : Pattern.ofList "" = [] := by
      rw [Pattern.ofList, String.splitOn, String.splitOnAux]
      decide +kernel
    have hunchecked := q.choices_unchecked hc
    obtain ⟨module, name, signature, checked⟩ := c
    cases hunchecked
    simp [hnone]
  next => rfl

theorem wrap_iff : (p.answer text m).2 = some .wrap ↔
    m = .key .enter ∧ p.done = false ∧ p.selection ≠ [] := by
  cases m with
  | key key =>
    cases key with
    | enter =>
      dsimp only [answer, update, press]
      grind
    | _ => simp [answer, update, press]
  | retyped _ => simp [answer]
  | loaded result => cases result <;> simp [answer, update]
  | wrapped result => cases result <;> simp [answer, update]

/-- An import is checked. -/
def Checks (p : Picker) (module name : String) : Prop :=
  ∃ c ∈ p.choices, c.checked = true ∧ c.module = module ∧ c.name = name

/-- A configuration to match just what is checked, and otherwise as the options say. -/
structure Configures (p : Picker) (c : Config) : Prop where
  matcher : ∀ module name, c.matcher.accepts module name = true ↔ p.Checks module name
  names : c.table = p.options.table ∧ c.alloc = p.options.alloc ∧ c.signal = p.options.signal
  strategy : Strategy.ofText p.options.strategy = .ok c.strategy

/-- A report tells of the imported functions of the module that are checked, and of no others. -/
def Reports (p : Picker) (r : Report) : Prop :=
  ∃ q, Program.parse p.data = .ok q ∧ ∀ module name id,
    (∃ w ∈ r.wrapped, w.module = module ∧ w.name = name ∧ w.func = id) ↔
      ⟨module, name, .func id⟩ ∈ q.imports ∧ p.Checks module name

/-- What the picker is told once the wrapped module is written, or cannot be. -/
def notice (p : Picker) (report : Report) : Except Fault Unit → Message
  | .error fault => .wrapped (.error (.writing p.options.output fault))
  | .ok () => .wrapped (.ok (report.text .styled p.options))

/-- What wrapping does. It fails before any file is touched, or writes the module in which just the
checked imports are wrapped. -/
inductive Wraps {f : Type → Type} [Monad f] (files : Files f) (p : Picker) : f Message → Prop
  | refused {fault} : Strategy.ofText p.options.strategy = .error fault →
      Wraps files p (pure (.wrapped (.error fault)))
  | failed {c failure} : p.Configures c → transform p.data c = .error failure →
      Wraps files p (pure (.wrapped (.error failure.toFault)))
  | wrote {c out report} : p.Configures c → transform p.data c = .ok (out, report) →
      p.Reports report → Wraps files p (p.notice report <$> files.write p.options.output out)

theorem matcher_accepts_iff (p : Picker) (module name : String) :
    p.matcher.accepts module name = true ↔ p.Checks module name := by
  simp [matcher, Matcher.accepts, selection, Checks, and_assoc]

theorem Configures.reports {c : Config} (hc : p.Configures c) {out : Bytes} {report : Report}
    (h : transform p.data c = .ok (out, report)) : p.Reports report := by
  obtain ⟨q, hq, hall⟩ := transform_wrapped_iff h
  refine ⟨q, hq, fun module name id => ?_⟩
  rw [hall, hc.matcher]

section Running

variable {f : Type → Type} [Monad f] [LawfulMonad f] (files : Files f)

theorem wrapping_of_error {fault : Fault} (h : p.options.wrap p.matcher p.data = .error fault) :
    p.wrapping files = pure (.wrapped (.error fault)) := by
  rw [wrapping, Options.wrapTo, h, map_pure]

theorem wrapping_of_ok {out : Bytes} {report : Report}
    (h : p.options.wrap p.matcher p.data = .ok (out, report)) :
    p.wrapping files = p.notice report <$> files.write p.options.output out := by
  rw [wrapping, Options.wrapTo, h, map_bind, map_eq_pure_bind]
  congr 1
  funext result
  cases result <;> exact map_pure _ _

/-- Whenever wrapping is done, it is about what is checked. -/
theorem wrapping_wraps (p : Picker) : p.Wraps files (p.wrapping files) := by
  cases hstrategy : Strategy.ofText p.options.strategy with
  | error fault =>
    have hwrap : p.options.wrap p.matcher p.data = .error fault := by
      rw [Options.wrap, hstrategy]
      rfl
    rw [wrapping_of_error files hwrap]
    exact .refused hstrategy
  | ok strategy =>
    have hc : p.Configures ⟨p.matcher, p.options.table, p.options.alloc, p.options.signal, strategy⟩ :=
      ⟨p.matcher_accepts_iff, ⟨rfl, rfl, rfl⟩, hstrategy⟩
    cases hrun : transform p.data ⟨p.matcher, p.options.table, p.options.alloc, p.options.signal,
        strategy⟩ with
    | error failure =>
      have hwrap : p.options.wrap p.matcher p.data = .error failure.toFault := by
        rw [Options.wrap, hstrategy, ok_bind, hrun]
        rfl
      rw [wrapping_of_error files hwrap]
      exact .failed hc hrun
    | ok result =>
      have hwrap : p.options.wrap p.matcher p.data = .ok (result.1, result.2) := by
        rw [Options.wrap, hstrategy, ok_bind, hrun]
        rfl
      rw [wrapping_of_ok files hwrap]
      exact .wrote hc hrun (hc.reports hrun)

/-- The step that asks for wrapping does it at once and tells the picker how it ended. -/
theorem advance_enter (hdone : p.done = false) (hselected : p.selection ≠ []) :
    p.advance files (.key .enter) =
      (fun answer => ((p.update answer).1, false)) <$> p.wrapping files := by
  have hupdate : p.update (.key .enter) = (p, some .wrap) := by simp [update, press, hdone, hselected]
  rw [advance, hupdate, map_eq_pure_bind]

omit [LawfulMonad f] in
/-- A step that does not ask for wrapping touches no file. -/
theorem advance_of_ne (h : (p.update m).2 ≠ some .wrap) :
    p.advance files m = pure ((p.update m).1, decide ((p.update m).2 = some .quit)) := by
  unfold advance
  split
  next hwrap => exact absurd (congrArg Prod.snd hwrap) h
  next q request hupdate => rw [hupdate]

end Running

/-- What a message does to the choices, what it asks for and what is done at once, where patterns are
those of the options. -/
structure Faithful (p : Picker) (m : Message) (text : String) : Prop where
  own : ∃ text, p.update m = p.answer text m
  placed : p.Placed ∧ (p.answer text m).1.Placed
  kept : m.loads = false → (m = .key .space → p.done = true) →
    (p.answer text m).1.choices = p.choices
  flipped : m = .key .space → p.done = false → (p.answer text m).1.choices =
    p.choices.mapIdx fun i c => if p.visible[p.cursor]? = some i then c.flip else c
  preselected : ∀ data q, m = .loaded (.ok (data, Program.choices q)) →
    (p.answer text m).1.choices = q.choices.map fun c => { c with
      checked := (Pattern.ofList p.options.patterns).any (Pattern.accepts c.module c.name) }
  starts : (p.answer text m).2 = some .wrap ↔ m = .key .enter ∧ p.done = false ∧ p.selection ≠ []
  wraps : ∀ (f : Type → Type) [Monad f] [LawfulMonad f] (files : Files f),
    p.Wraps files (p.wrapping files)
  runs : ∀ (f : Type → Type) [Monad f] [LawfulMonad f] (files : Files f),
    (m = .key .enter → p.done = false → p.selection ≠ [] → p.advance files m =
      (fun answer => ((p.update answer).1, false)) <$> p.wrapping files) ∧
    (¬ (m = .key .enter ∧ p.done = false ∧ p.selection ≠ []) → p.advance files m =
      pure ((p.update m).1, decide ((p.update m).2 = some .quit)))

/-- Whatever the picker was told before and is told next, with the module read once at most: the cursor is
at a choice that is shown, the choices change as they should, wrapping is done when it is asked for and
at no other time, and it wraps just what is checked then. -/
theorem told_faithful (o : Options) (before : List (Message × String)) (m : Message) (text : String)
    (h : (before ++ [(m, text)]).countP (fun e => e.1.loads) ≤ 1) : (told o before).options = o ∧
      (told o before).done = before.any (fun e => e.1.finishes) ∧
      (told o before).Faithful m text := by
  have hnext : (told o (before ++ [(m, text)])).Placed := (told_placed h).1
  rw [told_concat] at hnext
  rw [countP_append] at h
  have hplaced : (told o before).Placed := (told_placed (Nat.le_trans (Nat.le_add_right _ _) h)).1
  obtain ⟨hoptions, hdone⟩ := told_rest o before
  refine ⟨hoptions, hdone, update_eq_answer _ m, ⟨hplaced, hnext⟩, fun hload hspace => ?_, ?_, ?_,
    wrap_iff, fun f _ _ files => wrapping_wraps files _, fun f _ _ files => ⟨?_, fun hidle => ?_⟩⟩
  · rw [choices, (answer_frame _ m text).2.2 hload hspace, choices]
  · rintro rfl hselecting
    have hpress : ((told o before).answer text (.key .space)).1 = (told o before).toggle :=
      if_neg (Bool.eq_false_iff.mp hselecting)
    rw [hpress, toggle_choices]
  · rintro data q rfl
    exact load_choices _ data q
  · rintro rfl hselecting hselected
    exact advance_enter files hselecting hselected
  · obtain ⟨own, hown⟩ := update_eq_answer (told o before) m
    exact advance_of_ne files fun hwrap => hidle (wrap_iff.mp (hown ▸ hwrap))

/-- A module that imports two functions and calls them, throws with a tag of its own, and exports what
a handler needs. -/
def twoImports : Bytes :=
  [0x00, 0x61, 0x73, 0x6D, 0x01, 0x00, 0x00, 0x00,
   0x01, 0x0C, 0x03, 0x60, 0x00, 0x00, 0x60, 0x01, 0x7F, 0x00, 0x60, 0x00, 0x01, 0x7F,
   0x02, 0x0D, 0x02, 0x01, 0x65, 0x01, 0x66, 0x00, 0x00, 0x01, 0x65, 0x01, 0x67, 0x00, 0x00,
   0x03, 0x04, 0x03, 0x02, 0x01, 0x00,
   0x04, 0x04, 0x01, 0x6F, 0x00, 0x00,
   0x0D, 0x03, 0x01, 0x00, 0x00,
   0x07, 0x0D, 0x03, 0x01, 0x74, 0x01, 0x00, 0x01, 0x61, 0x00, 0x02, 0x01, 0x73, 0x00, 0x03,
   0x0A, 0x12, 0x03, 0x04, 0x00, 0x41, 0x00, 0x0B, 0x02, 0x00, 0x0B,
   0x08, 0x00, 0x10, 0x00, 0x10, 0x01, 0x08, 0x00, 0x0B]

def chosenOptions : Options :=
  { output := "out", table := "t", alloc := "a", signal := "s", strategy := "modern" }

/-- The module is read, the text field leaves one of its imports, and that one is checked. -/
def chosenBefore : List (Message × String) :=
  [(.loaded (.ok (twoImports, [⟨"e", "f", "()", false⟩, ⟨"e", "g", "()", false⟩])), ""),
    (.key (.typed "g"), "G"), (.key .space, "G")]

def chosen : Picker :=
  told chosenOptions chosenBefore

def chosenConfig : Config :=
  ⟨chosen.matcher, "t", "a", "s", .modern⟩

/-- Of the two imports the checked one is wrapped, and the module is written. -/
theorem chosen_faithful : chosen.visible = [1] ∧
    chosen.choices.map Choice.checked = [false, true] ∧ chosen.Faithful (.key .enter) "" ∧
    chosen.Configures chosenConfig ∧ ∃ out report,
      transform chosen.data chosenConfig = .ok (out, report) ∧ chosen.Reports report ∧
      report.wrapped = [⟨"e", "g", 1, 5, false⟩] ∧
      ((chosen.advance Directory.files (.key .enter)).run []).2 = [("out", out)] := by
  obtain ⟨hoptions, -, hfaithful⟩ :=
    told_faithful chosenOptions chosenBefore (.key .enter) "" (by decide)
  have hoptions : chosen.options = chosenOptions := hoptions
  have hc : chosen.Configures chosenConfig := by
    refine ⟨chosen.matcher_accepts_iff, ?_, ?_⟩ <;> rw [hoptions]
    · exact ⟨rfl, rfl, rfl⟩
    · rfl
  have hrun : ((transform chosen.data chosenConfig).toOption.any fun r =>
      decide (r.2.wrapped = [⟨"e", "g", 1, 5, false⟩] ∧
        ((chosen.advance Directory.files (.key .enter)).run []).2 = [("out", r.1)])) = true := by
    decide +kernel
  obtain ⟨⟨out, report⟩, hrun, htest⟩ := any_toOption_iff.mp hrun
  obtain ⟨hwrapped, hwritten⟩ := of_decide_eq_true htest
  exact ⟨by decide +kernel, by decide +kernel, hfaithful, hc, out, report, hrun, hc.reports hrun, hwrapped,
    hwritten⟩

end Picker

end HostCatch
