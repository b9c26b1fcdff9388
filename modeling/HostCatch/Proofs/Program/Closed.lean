import HostCatch.Proofs.Program.Refusing
import HostCatch.Proofs.Wire.Structure

namespace HostCatch

namespace Wire.Module

variable {m : Module}

theorem typeDefAt_funcs (types : List FuncType) (n : Nat) :
    typeDefAt (types.map fun t => .func (some t)) n = .ok types[n]? := by
  induction types generalizing n with
  | nil => rfl
  | cons t types ih =>
    cases n with
    | zero => rfl
    | succ n => exact ih n

section Functions

variable (h : m.typeDefs = m.types.map fun t => .func (some t))

include h

theorem typeAt_funcs (n : Nat) : m.typeAt n = .ok m.types[n]? := by
  unfold typeAt
  split
  next => rfl
  next => rw [h, typeDefAt_funcs]

theorem signature?_funcs (func : Nat) : ∃ type, m.signature? func = .ok type := by
  unfold signature?
  split
  next => exact ⟨_, typeAt_funcs h _⟩
  next => exact ⟨_, rfl⟩

theorem startViolation_funcs : ∃ v, m.startViolation = .ok v := by
  unfold startViolation
  split
  next => exact ⟨_, rfl⟩
  next start _ =>
    obtain ⟨type, htype⟩ := signature?_funcs h start.toNat
    rw [htype]
    cases type <;> exact ⟨_, rfl⟩

theorem violation?_funcs : ∃ v, m.violation? = .ok v := by
  have hgroups : ∀ d ∈ m.typeDefs, d ≠ .group none := by
    rw [h]
    simp
  obtain ⟨v, hv⟩ := startViolation_funcs h
  unfold violation?
  rw [spaces_eq_ok_iff.mpr ⟨hgroups, rfl⟩]
  dsimp only [Bind.bind, Except.bind]
  split
  next => exact ⟨_, rfl⟩
  next =>
    rw [hv]
    cases v <;> exact ⟨_, rfl⟩

theorem validate_ends {A : Abort → Prop} : Ends A m.validate fun _ => True := by
  obtain ⟨v, hv⟩ := violation?_funcs h
  refine (Turns.liftAbort hv).bind fun v _ => ?_
  cases v with
  | none => exact .pure trivial
  | some v => exact Ends.fault _

theorem encode_ends {A : Abort → Prop} :
    Ends A (liftM m.encode : Except Failure Bytes) fun _ => True :=
  (Turns.liftAbort (encode_eq_ok_iff.mpr ⟨_, typePart_funcs h, rfl⟩)).mono fun _ _ => trivial

end Functions

end Wire.Module

/-- What is exported is there. -/
def ExportTarget.Within (p : Program) : ExportTarget → Prop
  | .func id => id < p.funcs.length
  | .table id => id < p.tables.length
  | .tag id => id < p.tags.length
  | .other _ _ => True

namespace Program

/-- A program in which imports and what they provide name each other, bodies can be walked, and
what bodies and exports name is there. -/
structure Closed (p : Program) : Prop where
  paired : p.Paired
  bodies : ∀ f ∈ p.funcs, ∀ b, f.kind = .defined b → ∃ visits, b.walk = .ok visits ∧
    ∀ v ∈ visits, v.instr.Within p.tables.length p.tags.length
  exports : ∀ e ∈ p.exports, e.target.Within p

variable {A : Abort → Prop} {p : Program}

/-- Writing a function of a closed program does not abort. -/
theorem Closed.emitFunction_ends (h : p.Closed) {id : FuncId} (hid : id ∈ p.definedFuncs) :
    Emit.Turns (Failure.Aborts A) (p.emitFunction p.numbering id) fun _ => True := by
  obtain ⟨f, hf, hdefined⟩ := mem_positions.mp hid
  obtain ⟨b, hkind⟩ := Function.kind_of_not_isImported (by simpa using hdefined)
  have hbody : f.body? = some b := by simp [Function.body?, hkind]
  obtain ⟨visits, hwalk, hvisits⟩ := h.bodies f (List.mem_of_getElem? hf) b hkind
  unfold emitFunction
  simp only [hf, Option.map_some, Option.getD_some, Option.bind_some, hbody]
  split
  next => exact fun _ => Ends.fault _
  next =>
    refine (emitBody_ends hwalk (fun _ _ _ _ a ha => (by cases ha))
      fun v hv labels e _ hrefuses => ?_).bind fun _ _ => .pure trivial
    cases hrefuses with
    | label | var | operand =>
      intro a ha
      cases ha
    | entity hnot =>
      rw [h.paired.tables_length, h.paired.tags_length] at hnot
      exact absurd (hvisits v hv) hnot

theorem Paired.importsToWire_exists (h : p.Paired) : ∃ imports, p.importsToWire = .ok imports := by
  have hall : ∀ i ∈ p.imports, ∃ w, p.importToWire i = .ok w := by
    intro i hi
    obtain ⟨entry, hentry⟩ := List.getElem?_of_mem hi
    unfold importToWire
    cases htarget : i.target with
    | func id =>
      obtain ⟨f, hf, -⟩ := h.linked.toFunc entry i id hentry htarget
      simp only [hf]
      exact ⟨_, rfl⟩
    | table id =>
      obtain ⟨t, ht, -⟩ := h.linked.toTable entry i id hentry htarget
      simp only [ht]
      exact ⟨_, rfl⟩
    | tag id =>
      obtain ⟨t, ht, -⟩ := h.linked.toTag entry i id hentry htarget
      simp only [ht]
      exact ⟨_, rfl⟩
    | carried desc => exact ⟨_, rfl⟩
  obtain ⟨imports, himports⟩ := exists_forall₂ hall
  exact ⟨imports, mapM_eq_ok_iff.mpr himports⟩

theorem followRef_ends (numbering : Numbering) {i : Wire.Instr} (hi : i.Writable) :
    Ends A (followRef numbering i) Wire.Instr.Writable := by
  unfold followRef
  split
  next hop _ =>
    split
    next =>
      have hd2 : i.op = 0xD2 := UInt8.toNat.inj hop
      exact .pure (hd2 ▸ ⟨_, rfl⟩)
    next => exact Ends.fault _
  next => exact .pure hi

theorem followExpr_ends (numbering : Numbering) (expr : Bytes) :
    Ends A (followExpr numbering expr) fun _ => True := by
  unfold followExpr
  split
  next => exact .pure trivial
  next =>
    split
    next => exact Ends.fault _
    next instrs hinstrs =>
      have hall : ∀ i ∈ instrs, i.Writable := fun i hi =>
        (Wire.decodeInstrs_spelled hinstrs i hi).writable
      refine (Turns.mapM fun i hi => followRef_ends numbering (hall i hi)).bind fun moved hmoved => ?_
      split
      next =>
        have hwritable : ∀ i ∈ moved, i.Writable := fun i hi =>
          (forall₂_mem_right hmoved hi).elim fun _ h => h.2
        obtain ⟨bytes, hbytes⟩ := Wire.encodeInstrs_of_writable hwritable
        exact (Turns.liftAbort hbytes).mono fun _ _ => trivial
      next => exact .pure trivial

theorem emitGlobal_ends (numbering : Numbering) (i : Nat) (g : Wire.Global) :
    Ends A (emitGlobal numbering i g) fun _ => True :=
  ((followExpr_ends numbering g.init).emitting _).bind fun _ _ => .pure trivial

theorem emitElement_ends (numbering : Numbering) (i : Nat) (e : Wire.Element) :
    Ends A (emitElement numbering i e) fun _ => True := by
  refine Ends.emitting ?_ _
  refine (Turns.mapM (R := fun _ _ => True) fun func _ => ?_).bind fun _ _ => ?_
  · split
    next => exact .pure trivial
    next => exact Ends.fault _
  · refine (Turns.mapM fun expr _ => followExpr_ends numbering expr).bind fun _ _ => ?_
    exact .pure trivial

theorem Closed.exportsToWire_exists (h : p.Closed) :
    ∃ exports, p.exportsToWire p.numbering = .ok exports := by
  have hindex {order : List Nat} {id n : Nat} (horder : order.length = n) (hid : id < n) :
      Numbering.index order id = .ok (Numbering.indexIn order id) :=
    if_pos (horder ▸ hid)
  have hall : ∀ e ∈ p.exports, ∃ w, exportToWire p.numbering e = .ok w := by
    intro e he
    have hwithin := h.exports e he
    unfold exportToWire
    cases htarget : e.target with
    | func id =>
      rw [htarget] at hwithin
      simp only [Numbering.func, hindex h.paired.funcs_length hwithin]
      exact ⟨_, rfl⟩
    | table id =>
      rw [htarget] at hwithin
      simp only [Numbering.table, hindex h.paired.tables_length hwithin]
      exact ⟨_, rfl⟩
    | tag id =>
      rw [htarget] at hwithin
      simp only [Numbering.tag, hindex h.paired.tags_length hwithin]
      exact ⟨_, rfl⟩
    | other kind index => exact ⟨_, rfl⟩
  obtain ⟨exports, hexports⟩ := exists_forall₂ hall
  exact ⟨exports, mapM_eq_ok_iff.mpr hexports⟩

/-- A program starts with a function that is not there. -/
def StartsOutside (p : Program) (a : Abort) : Prop :=
  ∃ start, p.start = some start ∧ p.funcs.length ≤ start ∧ a = .outOfRange start p.funcs.length

theorem Paired.startIndex_ends (h : p.Paired) :
    Ends p.StartsOutside (liftM (p.startIndex p.numbering) : Except Failure (Option UInt32))
      fun _ => True := by
  refine (Turns.attempt fun a ha => .of ?_).mono fun _ _ => trivial
  unfold startIndex at ha
  cases hstart : p.start with
  | none =>
    rw [hstart] at ha
    cases ha
  | some start =>
    rw [hstart, Option.mapM_some] at ha
    unfold Numbering.func Numbering.index at ha
    rw [h.funcs_length] at ha
    split at ha
    next => cases ha
    next hge =>
      cases ha
      exact ⟨start, hstart, Nat.le_of_not_lt hge, rfl⟩

/-- Whatever is wrong with a closed program is reported, but for a function to start with that is
not there. -/
theorem Closed.emit_ends (h : p.Closed) : Ends p.StartsOutside p.emit fun _ => True := by
  obtain ⟨imports, himports⟩ := h.paired.importsToWire_exists
  obtain ⟨exports, hexports⟩ := h.exportsToWire_exists
  have hmodule : Ends p.StartsOutside p.toModule fun m =>
      m.typeDefs = m.types.map fun t => .func (some t) := by
    refine ((Emit.Turns.mapM fun id hid => h.emitFunction_ends hid) []).bind fun bodies _ => ?_
    refine (Turns.liftAbort himports).bind fun _ _ => ?_
    refine (Turns.mapM fun g _ => emitGlobal_ends _ g.2 g.1).bind fun _ _ => ?_
    refine (Turns.mapM fun e _ => emitElement_ends _ e.2 e.1).bind fun _ _ => ?_
    refine (Turns.liftAbort hexports).bind fun _ _ => ?_
    refine h.paired.startIndex_ends.bind fun _ _ => ?_
    exact ((Ends.lift (p.nameSection p.numbering)).emitting _).bind fun _ _ => .pure rfl
  refine hmodule.bind fun m hm => ?_
  refine ((Wire.Module.validate_ends hm).emitting _).bind fun _ _ => ?_
  exact Wire.Module.encode_ends hm

end Program

end HostCatch
