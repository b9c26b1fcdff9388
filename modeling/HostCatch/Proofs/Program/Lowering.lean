import HostCatch.Proofs.Program.Canonical
import HostCatch.Program.ToBody
import Mathlib.Tactic.IntervalCases
namespace HostCatch

open List

theorem ValType.ofCode_eq_ok {c : Wire.TypeCode} {v : ValType} (h : ofCode c = .ok v) :
    v.needsHeap = false ∧ v.code = c := by
  unfold ofCode at h
  split at h
  next hc => cases h; subst hc; decide
  split at h
  next hc => cases h; subst hc; decide
  split at h
  next hc => cases h; subst hc; decide
  split at h
  next hc => cases h; subst hc; decide
  split at h
  next hc => cases h; subst hc; decide
  split at h
  next hc =>
    cases h
    obtain ⟨hlow, hhigh⟩ := hc
    rw [UInt8.le_iff_toNat_le] at hlow hhigh
    have hc := UInt8.ofNat_toNat (x := c)
    generalize c.toNat = n at hlow hhigh hc
    subst hc
    simp only [UInt8.reduceToNat] at hlow hhigh
    interval_cases n <;> decide
  next => cases h

theorem Scope.check_eq_ok {scope : Scope} {what : String} {index bound id : Nat}
    (h : scope.check what index bound = .ok id) : id = index ∧ index < bound := by
  unfold Scope.check at h
  split at h
  next hlt => cases h; exact ⟨rfl, hlt⟩
  next => cases h

theorem Scope.restate_eq_ok {α : Type} {scope : Scope} {x : Except Fault α} {a : α}
    (h : scope.restate x = .ok a) : x = .ok a := by
  cases x with
  | ok b => exact h
  | error e => cases h

theorem blockType_run {scope : Scope} {w : Emitting} {t : Int32} {type : BlockType}
    (h : scope.blockType t = .ok type) (extra : List ValType) :
    (w.blockType type).run extra = .ok (Wire.shortType t, extra) := by
  have hlow := t.le_toInt
  have hhigh := t.toInt_lt
  unfold Scope.blockType at h
  split at h
  next ht =>
    cases h
    subst ht
    rfl
  next ht =>
    split at h
    next hpos =>
      obtain ⟨id, hid, rfl⟩ := map_eq_ok_iff.mp h
      obtain ⟨rfl, -⟩ := Scope.check_eq_ok hid
      have hpos : 0 ≤ t.toInt := Int32.le_iff_toInt_le.mp hpos
      have hshort : Wire.shortType t = t :=
        Wire.shortType_of_le (Int32.le_iff_toInt_le.mpr (by simp; omega))
      have hback : Int32.ofInt (UInt32.ofNat t.toInt.toNat).toNat = t := by
        have hsize : t.toInt.toNat < UInt32.size := by
          unfold UInt32.size
          omega
        rw [UInt32.toNat_ofNat_of_lt' hsize, Int.toNat_of_nonneg hpos, Int32.ofInt_toInt]
      rw [hshort]
      exact congrArg (fun t => Except.ok (t, extra)) hback
    next hneg =>
      obtain ⟨v, hv, rfl⟩ := map_eq_ok_iff.mp h
      obtain ⟨hcode, hsame⟩ := ValType.ofCode_eq_ok (Scope.restate_eq_ok hv)
      have hneg : t.toInt < 0 := by
        rw [Int32.le_iff_toInt_le] at hneg
        simpa using hneg
      have hlt : ((t.toInt + 0x80) % 0x100).toNat < 256 := by omega
      have hback : Int32.ofInt (v.code.toNat - 0x80) = Wire.shortType t := by
        rw [hsame, UInt8.toNat_ofNat_of_lt' hlt, Int.toNat_of_nonneg (by omega),
          ← Wire.toInt_shortType_of_neg hneg, Int32.ofInt_toInt]
      rw [Emitting.blockType, if_neg (by simp [hcode])]
      exact congrArg (fun t => Except.ok (t, extra)) hback

/-- Other functions called in place of those that an instruction calls. -/
def Instr.redirect (κ : FuncId → FuncId) : Instr → Instr
  | .call func => .call (κ func)
  | .returnCall func => .returnCall (κ func)
  | i => i

def Seq.redirect (κ : FuncId → FuncId) (s : Seq) : Seq :=
  { s with instrs := s.instrs.map (Instr.redirect κ) }

theorem Seq.redirect_id : Seq.redirect id = id := by
  have hinstr : Instr.redirect id = id := by
    funext i
    cases i <;> rfl
  funext s
  rw [Seq.redirect, hinstr, map_id]
  rfl

namespace Emitting

variable {scope : Scope} {frames : List Frame}

/-- Writing gives what reading found a new number, and variables their own number back. -/
structure Follows (w : Emitting) (scope : Scope) (κ : FuncId → FuncId) (ρ : Renumbering) :
    Prop where
  call : ∀ n id, scope.funcRef n = .ok id → w.funcIndex (κ id) = .ok (ρ.call n)
  func : ∀ n id, scope.funcRef n = .ok id → w.funcIndex id = .ok (ρ.func n)
  tag : ∀ n id, scope.tagRef n = .ok id → w.numbering.tag id = .ok (ρ.tag n)
  table : ∀ n id, scope.tableRef n = .ok id → w.numbering.table id = .ok (ρ.table n)
  var : ∀ n var, scope.localRef n = .ok var → w.slot var = .ok n

theorem depth_label (w : Emitting) {d : UInt32} {target : SeqId}
    (hnodup : (frames.map Frame.seq).Nodup) (h : scope.label frames d = .ok target) :
    w.depth (frames.map Frame.seq) target = .ok d := by
  unfold Scope.label at h
  split at h
  next f hf =>
    cases h
    have hlabel : (frames.map Frame.seq)[d.toNat]? = some f.seq := by simp [hf]
    obtain ⟨hlt, hget⟩ := List.getElem?_eq_some_iff.mp hlabel
    have hfind : (frames.map Frame.seq).findIdx? (· = f.seq) = some d.toNat := by
      refine List.findIdx?_eq_some_iff_getElem.mpr ⟨hlt, by simpa using hget, ?_⟩
      intro j hj
      rw [← hget, decide_eq_true_eq]
      exact fun heq => Nat.ne_of_lt hj (hnodup.getElem_inj_iff.mp heq)
    simp [depth, hfind]
  next => cases h

theorem depths_labels (w : Emitting) {ds : List UInt32} {targets : List SeqId}
    (hnodup : (frames.map Frame.seq).Nodup) (h : ds.mapM (scope.label frames) = .ok targets) :
    targets.mapM (w.depth (frames.map Frame.seq)) = .ok ds :=
  mapM_eq_ok_iff.mpr (((mapM_eq_ok_iff.mp h).imp fun _ _ h => w.depth_label hnodup h).flip)

/-- What was read as a plain instruction is written as it was, with new numbers. -/
theorem plain_follows {w : Emitting} {κ : FuncId → FuncId} {ρ : Renumbering}
    (hw : w.Follows scope κ ρ) (hnodup : (frames.map Frame.seq).Nodup) {i : Wire.Instr} {j : Instr}
    (h : scope.Plain frames i j) :
    w.plain (frames.map Frame.seq) (j.redirect κ) = .ok (i.renumber ρ) := by
  cases h with
  | br h => simp [plain, Instr.redirect, w.depth_label hnodup h, Wire.Instr.renumber]
  | brIf h => simp [plain, Instr.redirect, w.depth_label hnodup h, Wire.Instr.renumber]
  | brTable hs h =>
    simp [plain, Instr.redirect, w.depths_labels hnodup hs, w.depth_label hnodup h,
      Wire.Instr.renumber]
  | call h => simp [plain, Instr.redirect, hw.call _ _ h, Wire.Instr.renumber]
  | returnCall h => simp [plain, Instr.redirect, hw.call _ _ h, Wire.Instr.renumber]
  | callIndirect htype h =>
    obtain ⟨rfl, -⟩ := Scope.check_eq_ok htype
    simp [plain, Instr.redirect, hw.table _ _ h, Wire.Instr.renumber]
  | returnCallIndirect htype h =>
    obtain ⟨rfl, -⟩ := Scope.check_eq_ok htype
    simp [plain, Instr.redirect, hw.table _ _ h, Wire.Instr.renumber]
  | localGet h => simp [plain, Instr.redirect, hw.var _ _ h, Wire.Instr.renumber]
  | localSet h => simp [plain, Instr.redirect, hw.var _ _ h, Wire.Instr.renumber]
  | localTee h => simp [plain, Instr.redirect, hw.var _ _ h, Wire.Instr.renumber]
  | tableGet h => simp [plain, Instr.redirect, hw.table _ _ h, Wire.Instr.renumber]
  | tableSet h => simp [plain, Instr.redirect, hw.table _ _ h, Wire.Instr.renumber]
  | i32 => rfl
  | i64 => rfl
  | f32 => rfl
  | f64 => rfl
  | refNull => rfl
  | refFunc h => simp [plain, Instr.redirect, hw.func _ _ h, Wire.Instr.renumber]
  | throw h => simp [plain, Instr.redirect, hw.tag _ _ h, Wire.Instr.renumber]
  | ret => rfl
  | unreachable => rfl
  | raw h => rw [Wire.Instr.renumber_raw ρ h]; rfl

end Emitting

namespace Emit

variable {α β : Type}

/-- Writing gives `a` and asks for no further types. -/
def Gives (x : Emit α) (a : α) : Prop :=
  ∀ extra, x.run extra = .ok (a, extra)

theorem Gives.done (a : α) : Gives (pure a) a := fun _ => rfl

theorem Gives.bind {x : Emit α} {f : α → Emit β} {a : α} {b : β} (hx : Gives x a)
    (hf : Gives (f a) b) : Gives (x >>= f) b := by
  intro extra
  rw [run_bind_eq_ok_iff]
  exact ⟨a, extra, hx extra, hf extra⟩

theorem Gives.bind_pure {x : Emit α} {f : α → β} {a : α} (hx : Gives x a) :
    Gives (x >>= fun a => pure (f a)) (f a) :=
  hx.bind (.done _)

theorem Gives.liftAbort {x : Except Abort α} {a : α} (h : x = .ok a) :
    Gives (liftM x) a := by
  subst h
  exact fun _ => rfl

theorem Gives.lift {x : Except Failure α} {a : α} (h : x = .ok a) : Gives (liftM x) a := by
  subst h
  exact fun _ => rfl

theorem Gives.mapM {f : α → Emit β} {as : List α} {bs : List β}
    (h : Forall₂ (fun a b => Gives (f a) b) as bs) : Gives (as.mapM f) bs := by
  induction h with
  | nil => exact .done []
  | cons hfirst _ ih =>
    rw [mapM_cons]
    exact hfirst.bind ih.bind_pure

end Emit

namespace Emitting

open Emit

variable (w : Emitting)

/-- What an instruction is written as, inside the labels and with nesting enough for the body. -/
def Written (labels : List SeqId) (i : Instr) (part : List Wire.Instr) : Prop :=
  ∀ bound, w.body.seqs.length < bound + labels.length →
    Gives (w.instr (fun inner => w.code bound (inner :: labels) inner) labels i) part

/-- What instructions in a row are written as. -/
def Writes (labels : List SeqId) (is : List Instr) (ws : List Wire.Instr) : Prop :=
  ∃ parts, List.Forall₂ (w.Written labels) is parts ∧ parts.flatten = ws

/-- What a sequence is written as. -/
def CodeOf (labels : List SeqId) (id : SeqId) (ws : List Wire.Instr) : Prop :=
  ∀ bound, w.body.seqs.length + 1 < bound + labels.length → Gives (w.code bound labels id) ws

/-- The sequence exists, and its type is written as a number. -/
def Typed (id : SeqId) (t : Int32) : Prop :=
  ∃ s, w.body.seqs[id]? = some s ∧ Gives (w.blockType s.type) t

variable {w} {labels : List SeqId} {ws inner first : List Wire.Instr}
  {id consequent alternative : SeqId} {s : Seq} {t : Int32}

theorem Writes.nil (labels : List SeqId) : w.Writes labels [] [] :=
  ⟨[], .nil, rfl⟩

theorem Writes.append {is js : List Instr} {vs : List Wire.Instr} (hi : w.Writes labels is vs)
    (hj : w.Writes labels js ws) : w.Writes labels (is ++ js) (vs ++ ws) := by
  obtain ⟨first, hfirst, rfl⟩ := hi
  obtain ⟨second, hsecond, rfl⟩ := hj
  exact ⟨first ++ second, rel_append hfirst hsecond, by simp⟩

theorem Written.writes {i : Instr} {part : List Wire.Instr} (h : w.Written labels i part) :
    w.Writes labels [i] part :=
  ⟨[part], .cons h .nil, by simp⟩

theorem Writes.codeOf (hs : w.body.seqs[id]? = some s)
    (hlabels : labels.length ≤ w.body.seqs.length) (h : w.Writes labels s.instrs ws) :
    w.CodeOf labels id ws := by
  obtain ⟨parts, hparts, rfl⟩ := h
  intro bound hbound
  cases bound with
  | zero => omega
  | succ bound =>
    have hseq : w.seq id = .ok s := by simp [seq, hs]
    refine (Gives.lift hseq).bind (Gives.bind_pure (Gives.mapM (hparts.imp ?_)))
    intro i part hpart
    exact hpart bound (by omega)

theorem Typed.seq (h : w.Typed id t) :
    ∃ s, w.body.seq id = .ok s ∧ Gives (w.blockType s.type) t := by
  obtain ⟨s, hs, ht⟩ := h
  exact ⟨s, by simp [Body.seq, hs], ht⟩

theorem CodeOf.nested (h : w.CodeOf (id :: labels) id inner) {bound : Nat}
    (hbound : w.body.seqs.length < bound + labels.length) :
    Gives (w.code bound (id :: labels) id) inner := by
  apply h
  simp only [length_cons]
  omega

theorem written_block (ht : w.Typed id t) (hinner : w.CodeOf (id :: labels) id inner) :
    w.Written labels (.block id) (⟨0x02, .block t⟩ :: inner ++ [close]) := by
  obtain ⟨s, hseq, ht⟩ := ht.seq
  exact fun bound hbound =>
    (Gives.liftAbort hseq).bind (ht.bind (hinner.nested hbound).bind_pure)

theorem written_loop (ht : w.Typed id t) (hinner : w.CodeOf (id :: labels) id inner) :
    w.Written labels (.loop id) (⟨0x03, .block t⟩ :: inner ++ [close]) := by
  obtain ⟨s, hseq, ht⟩ := ht.seq
  exact fun bound hbound =>
    (Gives.liftAbort hseq).bind (ht.bind (hinner.nested hbound).bind_pure)

theorem written_tryTable {clauses : List Clause} {catches : List Wire.CatchClause}
    (ht : w.Typed id t) (hcatches : w.catches labels clauses = .ok catches)
    (hinner : w.CodeOf (id :: labels) id inner) :
    w.Written labels (.tryTable id clauses) (⟨0x1F, .tryTable t catches⟩ :: inner ++ [close]) := by
  obtain ⟨s, hseq, ht⟩ := ht.seq
  exact fun bound hbound => (Gives.liftAbort hseq).bind (ht.bind ((Gives.lift hcatches).bind
    (hinner.nested hbound).bind_pure))

/-- An `if` whose alternative holds nothing is written without `else`. -/
theorem written_if (ht : w.Typed consequent t)
    (hfirst : w.CodeOf (consequent :: labels) consequent first)
    (hs : w.body.seqs[alternative]? = some s) (hempty : s.instrs = []) :
    w.Written labels (.ifElse consequent alternative) (⟨0x04, .block t⟩ :: first ++ [close]) := by
  obtain ⟨_, hseq, ht⟩ := ht.seq
  have hother : w.body.seq alternative = .ok s := by simp [Body.seq, hs]
  intro bound hbound
  refine (Gives.liftAbort hseq).bind (ht.bind ((hfirst.nested hbound).bind
    ((Gives.liftAbort hother).bind ?_)))
  simp only [hempty, ↓reduceIte, pure_bind, append_nil]
  exact .done _

theorem written_ifElse {second : List Wire.Instr} (ht : w.Typed consequent t)
    (hfirst : w.CodeOf (consequent :: labels) consequent first)
    (hs : w.body.seqs[alternative]? = some s) (hne : s.instrs ≠ [])
    (hsecond : w.CodeOf (alternative :: labels) alternative second) :
    w.Written labels (.ifElse consequent alternative)
      (⟨0x04, .block t⟩ :: first ++ ⟨0x05, .none⟩ :: second ++ [close]) := by
  obtain ⟨_, hseq, ht⟩ := ht.seq
  have hother : w.body.seq alternative = .ok s := by simp [Body.seq, hs]
  intro bound hbound
  refine (Gives.liftAbort hseq).bind (ht.bind ((hfirst.nested hbound).bind
    ((Gives.liftAbort hother).bind ?_)))
  simp only [hne, ↓reduceIte, pure_bind]
  exact (hsecond.nested hbound).bind_pure

/-- The first instruction of a handler. -/
inductive Opening (w : Emitting) : Option TagId → Wire.Instr → Prop
  | tag {id n} : w.numbering.tag id = .ok n → Opening w (some id) ⟨0x07, .throw n⟩
  | all : Opening w none ⟨0x19, .none⟩

/-- What a handler is written as. -/
def Handled (w : Emitting) (labels : List SeqId) (h : Handler) (ws : List Wire.Instr) : Prop :=
  ∃ op inner, w.Opening h.tag op ∧ w.CodeOf (h.seq :: labels) h.seq inner ∧ ws = op :: inner

theorem written_tryCatch {handlers : List Handler} {delegate : Option UInt32}
    {handled : List (List Wire.Instr)} (ht : w.Typed id t)
    (hinner : w.CodeOf (id :: labels) id inner)
    (hhandled : Forall₂ (w.Handled labels) handlers handled) :
    w.Written labels (.tryCatch id handlers delegate)
      (⟨0x06, .block t⟩ :: inner ++ handled.flatten ++ [match delegate with
        | some depth => ⟨0x18, .branch depth⟩
        | none => close]) := by
  obtain ⟨_, hseq, ht⟩ := ht.seq
  intro bound hbound
  refine (Gives.liftAbort hseq).bind (ht.bind ((hinner.nested hbound).bind
    (Gives.bind_pure (Gives.mapM (hhandled.imp ?_)))))
  rintro ⟨tag, seq⟩ ws ⟨op, body, hop, hbody, rfl⟩
  cases hop with
  | tag hn => exact (Gives.liftAbort hn).bind (hbody.nested hbound).bind_pure
  | all => exact (hbody.nested hbound).bind_pure

end Emitting

end HostCatch
