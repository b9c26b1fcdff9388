import HostCatch.Proofs.Program.Reading
import HostCatch.Proofs.Wire.Instr

namespace HostCatch

open List

/-- New numbers for the functions that code calls, for those that it refers to, and for its tables
and tags. -/
structure Renumbering where
  call : UInt32 → UInt32
  func : UInt32 → UInt32
  table : UInt32 → UInt32
  tag : UInt32 → UInt32

def Renumbering.same : Renumbering :=
  ⟨fun func => func, fun func => func, fun table => table, fun tag => tag⟩

namespace Wire

variable {i : Instr} {t : Int32}

/-- The type of a block as a number that one byte spells, where there is one. -/
def shortType (t : Int32) : Int32 :=
  if -128 ≤ t then t else Int32.ofInt ((t.toInt + 0x80) % 0x100 - 0x80)

def CatchClause.renumber (ρ : Renumbering) (c : CatchClause) : CatchClause :=
  { c with tag := if takesTag c.kind then ρ.tag c.tag else 0 }

/-- An instruction with new numbers, in the form in which writing gives it. -/
def Instr.renumber (ρ : Renumbering) (i : Instr) : Instr :=
  match i.op.toNat, i.imm with
  | 0x02, .block t => ⟨0x02, .block (shortType t)⟩
  | 0x03, .block t => ⟨0x03, .block (shortType t)⟩
  | 0x04, .block t => ⟨0x04, .block (shortType t)⟩
  | 0x05, _ => ⟨0x05, .none⟩
  | 0x06, .block t => ⟨0x06, .block (shortType t)⟩
  | 0x07, .throw tag => ⟨0x07, .throw (ρ.tag tag)⟩
  | 0x08, .throw tag => ⟨0x08, .throw (ρ.tag tag)⟩
  | 0x0B, _ => ⟨0x0B, .none⟩
  | 0x0F, _ => ⟨0x0F, .none⟩
  | 0x00, _ => ⟨0x00, .none⟩
  | 0x10, .call func => ⟨0x10, .call (ρ.call func)⟩
  | 0x12, .call func => ⟨0x12, .call (ρ.call func)⟩
  | 0x19, _ => ⟨0x19, .none⟩
  | 0x1F, .tryTable t catches => ⟨0x1F, .tryTable (shortType t) (catches.map (·.renumber ρ))⟩
  | 0x11, .callIndirect type table => ⟨0x11, .callIndirect type (ρ.table table)⟩
  | 0x13, .callIndirect type table => ⟨0x13, .callIndirect type (ρ.table table)⟩
  | 0x25, .table table => ⟨0x25, .table (ρ.table table)⟩
  | 0x26, .table table => ⟨0x26, .table (ρ.table table)⟩
  | 0xD2, .refFunc func => ⟨0xD2, .refFunc (ρ.func func)⟩
  | _, _ => i

theorem Instr.renumber_raw (ρ : Renumbering) (h : ¬ i.Known) : i.renumber ρ = i := by
  obtain ⟨op, imm⟩ := i
  unfold renumber
  dsimp only
  split
  case h_20 => rfl
  all_goals
    rename_i heq
    obtain rfl := eq_ofNat_of_toNat_eq heq
    exact absurd (by constructor) h

theorem Instr.renumber_op (ρ : Renumbering) (i : Instr) : (i.renumber ρ).op = i.op := by
  obtain ⟨op, imm⟩ := i
  unfold renumber
  dsimp only
  split
  case h_20 => rfl
  all_goals
    rename_i heq
    exact (eq_ofNat_of_toNat_eq heq).symm

/-- The type of the block that an instruction opens. -/
def Instr.blockType? (i : Instr) : Option Int32 :=
  match i.imm with
  | .block t => some t
  | .tryTable t _ => some t
  | _ => none

theorem Instr.Spelled.imm (h : i.Spelled) :
    ∃ layout c c', Layout.ofOpcode? i.op = some layout ∧ Reader.imm layout c = .ok i.imm c' := by
  obtain ⟨w, -, -, hread⟩ := h
  obtain ⟨op, d, -, h⟩ := Reader.of_bind (hread [] 0)
  cases hop : Layout.ofOpcode? op with
  | none =>
    rw [hop] at h
    exact absurd h Reader.throw_ne_ok
  | some layout =>
    rw [hop] at h
    obtain ⟨imm, e, himm, h⟩ := Reader.of_bind h
    obtain ⟨rfl, -⟩ := Reader.pure_eq_ok_iff.mp h
    exact ⟨layout, d, e, hop, himm⟩

theorem Instr.Spelled.none {op : UInt8} {imm : Imm} (h : Instr.Spelled ⟨op, imm⟩)
    (hop : Layout.ofOpcode? op = some .none) : imm = .none := by
  obtain ⟨layout, c, c', hlayout, himm⟩ := h.imm
  cases hop.symm.trans hlayout
  exact (Reader.pure_eq_ok_iff.mp himm).1.symm

theorem Instr.Spelled.catches {catches : List CatchClause}
    (h : Instr.Spelled ⟨0x1F, .tryTable t catches⟩) : catches.length < 2 ^ 32 ∧
      ∀ c ∈ catches, CatchClause.takesTag c.kind = false → c.tag = 0 := by
  obtain ⟨layout, c, c', hlayout, himm⟩ := h.imm
  cases hlayout
  obtain ⟨type, d, -, himm⟩ := Reader.of_bind himm
  obtain ⟨n, e, -, himm⟩ := Reader.of_bind himm
  obtain ⟨found, f, hfound, himm⟩ := Reader.of_bind himm
  cases (Reader.pure_eq_ok_iff.mp himm).1
  obtain ⟨hlength, hall⟩ := Reader.times_eq_ok hfound
  refine ⟨hlength ▸ n.toNat_lt, fun clause hclause hkind => ?_⟩
  obtain ⟨g, k, hread⟩ := hall clause hclause
  exact Reader.catchClause_tag hread hkind

theorem Instr.Spelled.renumber (h : i.Spelled) (ρ : Renumbering) : (i.renumber ρ).Spelled := by
  obtain ⟨op, imm⟩ := i
  unfold Instr.renumber
  dsimp only
  split
  case h_20 => exact h
  case h_14 t catches heq =>
    obtain rfl := eq_ofNat_of_toNat_eq heq
    obtain ⟨hlength, -⟩ := h.catches
    refine (Imm.tryTable_spelled _ (by simpa using hlength) fun c hc => ?_).instr rfl
    obtain ⟨clause, -, rfl⟩ := mem_map.mp hc
    exact catchClause_spells fun hkind => by simp_all [CatchClause.renumber]
  all_goals first
    | exact (Imm.block_spelled _).instr rfl
    | exact Imm.none_spelled.instr rfl
    | exact (Imm.throw_spelled _).instr rfl
    | exact (Imm.call_spelled _).instr rfl
    | exact (Imm.callIndirect_spelled _ _).instr rfl
    | exact (Imm.table_spelled _).instr rfl
    | exact (Imm.refFunc_spelled _).instr rfl

theorem shortType_of_le (h : -128 ≤ t) : shortType t = t := by
  rw [shortType, if_pos h]

theorem toInt_shortType_of_neg (h : t.toInt < 0) :
    (shortType t).toInt = (t.toInt + 0x80) % 0x100 - 0x80 := by
  unfold shortType
  split
  next hle =>
    have hle : -128 ≤ t.toInt := Int32.le_iff_toInt_le.mp hle
    omega
  next => rw [Int32.toInt_ofInt_of_le (by omega) (by omega)]

/-- What was read is already in the form in which it is written. -/
theorem Instr.renumber_same (h : i.Spelled) (hshort : ∀ t ∈ i.blockType?, -128 ≤ t) :
    i.renumber .same = i := by
  obtain ⟨op, imm⟩ := i
  unfold Instr.renumber
  dsimp only
  split
  case h_20 => rfl
  case h_14 t catches heq =>
    obtain rfl := eq_ofNat_of_toNat_eq heq
    have hcatches : catches.map (·.renumber .same) = catches := by
      refine map_congr_left (g := id) (fun c hc => ?_) |>.trans (map_id _)
      have htag := h.catches.2 c hc
      cases hkind : CatchClause.takesTag c.kind with
      | true => simp [CatchClause.renumber, Renumbering.same, hkind]
      | false => simp [CatchClause.renumber, hkind, ← htag hkind]
    rw [hcatches, shortType_of_le (hshort t rfl)]
    rfl
  all_goals
    rename_i heq
    obtain rfl := eq_ofNat_of_toNat_eq heq
    first
    | rfl
    | rw [h.none rfl]; rfl
    | rw [shortType_of_le (hshort _ rfl)]; rfl

/-- The code without each `else` that its `end` follows at once. -/
def dropEmptyElse : List Instr → List Instr
  | i :: j :: rest =>
    if i.op = 0x05 ∧ j.op = 0x0B then dropEmptyElse (j :: rest) else i :: dropEmptyElse (j :: rest)
  | is => is

theorem mem_of_mem_dropEmptyElse {is : List Instr} (h : i ∈ dropEmptyElse is) : i ∈ is := by
  fun_induction dropEmptyElse is with
  | case1 _ _ _ _ ih => exact mem_cons_of_mem _ (ih h)
  | case2 j _ _ _ ih =>
    rcases mem_cons.mp h with rfl | h
    · exact mem_cons_self
    · exact mem_cons_of_mem _ (ih h)
  | case3 => exact h

end Wire

namespace Reading

theorem step_else {scope : Scope} {r next : Reading} {top : Frame} {outer : List Frame}
    {i : Wire.Instr} (hi : i.op = 0x05) (h : step scope r top outer i = .ok next) :
    ∃ alternative, top.role = .consequent alternative ∧
      next = { r with frames := ⟨alternative, .alternative top.seq⟩ :: outer } := by
  obtain ⟨op, imm⟩ := i
  obtain rfl : op = 0x05 := hi
  obtain ⟨seq, role⟩ := top
  cases role with
  | consequent alternative => exact ⟨alternative, rfl, (Except.ok.inj h).symm⟩
  | _ => cases h

/-- An alternative that holds nothing may as well be left out. -/
theorem run_emptyElse {scope : Scope} {r : Reading} {i j : Wire.Instr} {rest : List Wire.Instr}
    {final : List Seq} (hi : i.op = 0x05) (hj : j.op = 0x0B)
    (h : run scope r (i :: j :: rest) = .ok final) : run scope r (j :: rest) = .ok final := by
  obtain ⟨seqs, frames⟩ := r
  obtain ⟨op, imm⟩ := i
  obtain ⟨op', imm'⟩ := j
  obtain rfl : op = 0x05 := hi
  obtain rfl : op' = 0x0B := hj
  cases frames with
  | nil => cases h
  | cons top outer =>
    obtain ⟨next, hstep, hrun⟩ := of_bind h
    obtain ⟨alternative, hrole, rfl⟩ := step_else rfl hstep
    have hconstruct : top.construct? = some (.ifElse top.seq alternative) := by
      simp [Frame.construct?, hrole]
    change run scope (close ⟨seqs, top :: outer⟩ outer top.construct?) rest = .ok final
    rw [hconstruct]
    cases outer <;> exact hrun

end Reading

end HostCatch
