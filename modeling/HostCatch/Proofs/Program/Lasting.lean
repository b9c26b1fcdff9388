import HostCatch.Proofs.Program.RoundTrip

namespace HostCatch

open List

namespace Wire

theorem le_shortType (t : Int32) : -128 ≤ shortType t := by
  unfold shortType
  split
  next h => exact h
  next =>
    have hlow : (-128 : Int32).toInt = -128 := rfl
    rw [Int32.le_iff_toInt_le, Int32.toInt_ofInt_of_le (by omega) (by omega)]
    omega

theorem CatchClause.renumber_renumber (ρ : Renumbering) (c : CatchClause) :
    (c.renumber ρ).renumber .same = c.renumber ρ := by
  cases hkind : takesTag c.kind <;> simp [renumber, Renumbering.same, hkind]

/-- Numbers are given once: what has them is in the form in which it is written. -/
theorem Instr.renumber_renumber (ρ : Renumbering) (i : Instr) :
    (i.renumber ρ).renumber .same = i.renumber ρ := by
  have hshort (t : Int32) : shortType (shortType t) = shortType t :=
    shortType_of_le (le_shortType t)
  have hcall (func : UInt32) : Renumbering.same.call func = func := rfl
  have hfunc (func : UInt32) : Renumbering.same.func func = func := rfl
  have htable (table : UInt32) : Renumbering.same.table table = table := rfl
  have htag (tag : UInt32) : Renumbering.same.tag tag = tag := rfl
  obtain ⟨op, imm⟩ := i
  by_cases hknown : (⟨op, imm⟩ : Instr).Known
  · cases hknown <;> simp [renumber, hshort, hcall, hfunc, htable, htag,
      CatchClause.renumber_renumber]
  · rw [renumber_raw ρ hknown, renumber_raw .same hknown]

theorem dropEmptyElse_map_renumber (ρ : Renumbering) (is : List Instr) :
    dropEmptyElse (is.map (·.renumber ρ)) = (dropEmptyElse is).map (·.renumber ρ) := by
  fun_induction dropEmptyElse is with
  | case1 i j rest h ih =>
    rw [map_cons, map_cons, dropEmptyElse, if_pos (by simpa only [Instr.renumber_op] using h)]
    exact ih
  | case2 i j rest h ih =>
    rw [map_cons, map_cons, dropEmptyElse, if_neg (by simpa only [Instr.renumber_op] using h),
      map_cons, ← ih, map_cons]
  | case3 is h =>
    cases is with
    | nil => rfl
    | cons i is =>
      cases is with
      | nil => rfl
      | cons j rest => exact absurd rfl (h i j rest)

theorem dropEmptyElse_of_forall {is : List Instr} (h : ∀ i ∈ is, i.op ≠ 0x05) :
    dropEmptyElse is = is := by
  fun_induction dropEmptyElse is with
  | case1 i j rest helse => exact absurd helse.1 (h i (by simp))
  | case2 i j rest _ ih => rw [ih fun k hk => h k (mem_cons_of_mem _ hk)]
  | case3 => rfl

theorem dropEmptyElse_head {j : Instr} {rest : List Instr} :
    ∃ k others, dropEmptyElse (j :: rest) = k :: others ∧ (k = j ∨ j.op = 0x05) := by
  induction rest generalizing j with
  | nil => exact ⟨j, [], rfl, .inl rfl⟩
  | cons i rest ih =>
    rw [dropEmptyElse]
    split
    next h =>
      obtain ⟨k, others, hrest, -⟩ := ih
      exact ⟨k, others, hrest, .inr h.1⟩
    next => exact ⟨j, _, rfl, .inl rfl⟩

end Wire

namespace Reading

variable {scope : Scope}

theorem run_two_elses {r : Reading} {i j : Wire.Instr} {rest : List Wire.Instr} {final : List Seq}
    (h : run scope r (i :: j :: rest) = .ok final) : ¬ (i.op = 0x05 ∧ j.op = 0x05) := by
  rintro ⟨hi, hj⟩
  obtain ⟨seqs, frames⟩ := r
  cases frames with
  | nil => cases h
  | cons top outer =>
    obtain ⟨next, hfirst, hrest⟩ := of_bind h
    obtain ⟨alternative, -, rfl⟩ := step_else hi hfirst
    obtain ⟨_, hsecond, -⟩ := of_bind hrest
    obtain ⟨_, hrole, -⟩ := step_else hj hsecond
    cases hrole

/-- Code that can be read loses every `else` that holds nothing at once. -/
theorem run_dropEmptyElse_again {r : Reading} {is : List Wire.Instr} {final : List Seq}
    (h : run scope r is = .ok final) :
    Wire.dropEmptyElse (Wire.dropEmptyElse is) = Wire.dropEmptyElse is := by
  fun_induction Wire.dropEmptyElse is generalizing r with
  | case1 i j rest helse ih => exact ih (run_emptyElse helse.1 helse.2 h)
  | case2 i j rest hkept ih =>
    obtain ⟨seqs, frames⟩ := r
    cases frames with
    | nil => cases h
    | cons top outer =>
      have hsecond := run_two_elses h
      obtain ⟨next, -, hrest⟩ := of_bind h
      obtain ⟨k, others, hdrop, hk⟩ := @Wire.dropEmptyElse_head j rest
      have hnone : ¬ (i.op = 0x05 ∧ k.op = 0x0B) := by
        rintro ⟨hi, hend⟩
        rcases hk with rfl | hj
        · exact hkept ⟨hi, hend⟩
        · exact hsecond ⟨hi, hj⟩
      rw [hdrop, Wire.dropEmptyElse, if_neg hnone, ← hdrop, ih hrest]
  | case3 is hshort =>
    cases is with
    | nil => rfl
    | cons i is =>
      cases is with
      | nil => rfl
      | cons j rest => exact absurd rfl (hshort i j rest)

end Reading

namespace Program

variable {m out : Wire.Module} {p p' q s : Program} {tables : List Table} {exports : List Export}

/-- Code that is written as it stands, once it is read. -/
structure Lasting (code : Wire.FuncBody) : Prop where
  instrs : ∃ is, Wire.decodeInstrs code.code = .ok is ∧
    Wire.encodeInstrs ((Wire.dropEmptyElse is).map (·.renumber .same)) = .ok code.code
  locals : ∃ types, code.locals = (runs types).map localEntry ∧
    ∀ scope, declaredTypes scope code.locals = .ok types

theorem ReadsBody.lasting {func : FuncId} {start : Nat} {code code' : Wire.FuncBody}
    {declared : List ValType} {b : Body} (h : p.ReadsBody func start code declared b)
    {ρ : Renumbering} (hcode : Recoded ρ code code') : Lasting code' := by
  obtain ⟨is, his, hrun⟩ := Body.seqsOfCode_eq_ok_iff.mp h.seqs
  obtain ⟨hdecode, hencode⟩ := hcode.instrs is his
  refine ⟨⟨_, hdecode, ?_⟩, declared, (hcode.types _ (p.scope func []) _ h.types).2,
    fun scope => (hcode.types _ scope _ h.types).1⟩
  rw [Wire.dropEmptyElse_map_renumber, Reading.run_dropEmptyElse_again hrun, map_map]
  simp only [Function.comp_def, Wire.Instr.renumber_renumber]
  exact hencode

/-- Code that lasts is written for the function that it is the code of. -/
theorem ReadFrom.emitFunction_lasting (hr : ReadFrom m p q s tables exports) {i : Nat}
    {type : UInt32} {code : Wire.FuncBody} (htype : m.funcs[i]? = some type)
    (hcode : m.code[i]? = some code) (hlasts : Lasting code) :
    Emit.Gives (p.emitFunction p.numbering (q.funcs.length + i)) (type, code) := by
  obtain ⟨f, scope, declared, is, hf, hdeclared, his, hgives⟩ := hr.emitFunction_gives hcode
  cases (hr.funcs_getElem? hf).symm.trans htype
  obtain ⟨_, his', hencode⟩ := hlasts.instrs
  cases his.symm.trans his'
  obtain ⟨types, hlocals, htypes⟩ := hlasts.locals
  cases hdeclared.symm.trans (htypes _)
  have hwritten := hgives _ hencode
  rwa [← hlocals] at hwritten

end Program

end HostCatch
