import HostCatch.Proofs.Program.Moving

namespace HostCatch

open List HostCatch.Numbering

namespace Wire

/-- The same instruction, but for the index of a function that is referred to: if this was one of
`count` functions, it stands for the same function in the order. -/
inductive RefKept (count : Nat) (order : List FuncId) : Instr → Instr → Prop
  | ref {before after} : (before.toNat < count → Denotes order after before.toNat) →
      RefKept count order ⟨0xD2, .refFunc before⟩ ⟨0xD2, .refFunc after⟩
  | other {i} : (∀ func, i ≠ ⟨0xD2, .refFunc func⟩) → RefKept count order i i

/-- The same constant expression, but for the indices of functions that it refers to. -/
structure ExprKept (count : Nat) (order : List FuncId) (before after : Bytes) : Prop where
  instrs : ∀ is, decodeInstrs before = .ok is →
    ∃ js, decodeInstrs after = .ok js ∧ List.Forall₂ (RefKept count order) is js
  unread : (∀ is, decodeInstrs before ≠ .ok is) → after = before

namespace Module

/-- The constant expressions of `out` are those of `m`, for the functions and tables that `m` gave
the first `count` identifiers. -/
structure KeepsConstants (m out : Module) (count : Nat) (l : Numbering) : Prop where
  globals : List.Forall₂ (fun g h => ExprKept count l.funcs g.init h.init) m.globals out.globals
  elements : List.Forall₂ (fun e f => ExprKept count l.funcs e.offset f.offset ∧
    List.Forall₂ (ExprKept count l.funcs) e.exprs f.exprs) m.elements out.elements
  data : List.Forall₂ (fun d e => ExprKept count l.funcs d.offset e.offset) m.data out.data
  tables : ∀ (id : Nat) t, m.tableSpace[id]? = some t →
    ∃ u, out.tableSpace[l.tables.idxOf id]? = some u ∧ ExprKept count l.funcs t.1.init u.1.init

/-- The constant expressions that are written as they were read: where segments begin, and what
tables hold at first. -/
def fixedConstants (m : Module) : List Bytes :=
  m.elements.map Element.offset ++ m.data.map DataSegment.offset ++ m.tableSpace.map (·.1.init)

theorem forall_fixedConstants {m : Module} {P : Bytes → Prop} : (∀ expr ∈ m.fixedConstants, P expr) ↔
    (∀ e ∈ m.elements, P e.offset) ∧ (∀ d ∈ m.data, P d.offset) ∧ ∀ t ∈ m.tableSpace, P t.1.init := by
  rw [fixedConstants, forall_mem_append, forall_mem_append, forall_mem_map,
    forall_mem_map, forall_mem_map, and_assoc]

end Module

section Kept

variable {count : Nat} {order : List FuncId}

theorem refKept_self_iff {i : Instr} : RefKept count order i i ↔
    ∀ func, i = ⟨0xD2, .refFunc func⟩ → func.toNat < count → Denotes order func func.toNat := by
  constructor
  · intro h func hi
    subst hi
    cases h with
    | ref hkept => exact hkept
    | other hother => exact absurd rfl (hother func)
  · intro h
    by_cases href : ∃ func, i = ⟨0xD2, .refFunc func⟩
    · obtain ⟨func, rfl⟩ := href
      exact .ref (h func rfl)
    · exact .other fun func hi => href ⟨func, hi⟩

theorem exprKept_self_iff {expr : Bytes} : ExprKept count order expr expr ↔
    ∀ is, decodeInstrs expr = .ok is → ∀ func, ⟨0xD2, .refFunc func⟩ ∈ is → func.toNat < count →
      Denotes order func func.toNat := by
  constructor
  · rintro ⟨hinstrs, -⟩ is his func hfunc
    obtain ⟨js, hjs, hall⟩ := hinstrs is his
    cases his.symm.trans hjs
    exact refKept_self_iff.mp (forall₂_same.mp hall _ hfunc) func rfl
  · intro h
    refine ⟨fun is his => ⟨is, his, forall₂_same.mpr fun i hi => ?_⟩, fun _ => rfl⟩
    refine refKept_self_iff.mpr fun func hfunc => ?_
    subst hfunc
    exact h is his func hi

end Kept

end Wire

namespace Program

open Wire

section Follow

variable {l : Numbering} {n count : Nat} (horder : l.funcs.Perm (List.range n)) (hn : n ≤ 2 ^ 32)

include horder hn

theorem followRef_kept {i j : Wire.Instr} (hi : i.Spelled) (h : followRef l i = .ok j) :
    j.Spelled ∧ RefKept count l.funcs i j := by
  unfold followRef at h
  obtain ⟨op, imm⟩ := i
  dsimp only at h
  split at h
  next func heq =>
    obtain rfl := eq_ofNat_of_toNat_eq heq
    split at h
    next hlt =>
      cases h
      rw [horder.length_eq, length_range] at hlt
      exact ⟨(Imm.refFunc_spelled _).instr rfl, .ref fun _ => denotes_indexIn horder hn hlt⟩
    next => cases h
  next hother =>
    cases h
    refine ⟨hi, .other fun func heq => ?_⟩
    cases heq
    exact hother func rfl rfl

/-- Where functions have moved, a constant expression follows them. -/
theorem followExpr_kept (hcount : count ≤ n) {expr found : Bytes}
    (h : followExpr l expr = .ok found) : ExprKept count l.funcs expr found := by
  unfold followExpr at h
  split at h
  next hunmoved =>
    cases h
    refine exprKept_self_iff.mpr fun is his func hfunc hlt => ?_
    rw [Bool.or_eq_true, decide_eq_true_eq, Bool.not_eq_true'] at hunmoved
    rcases hunmoved with hunmoved | rfl
    · have hrange : l.funcs = List.range n := by
        simpa [movesFuncs, horder.length_eq] using hunmoved
      rw [Denotes, hrange, getElem?_range (Nat.lt_of_lt_of_le hlt hcount)]
    · cases his
      exact absurd hfunc not_mem_nil
  next =>
    split at h
    next => cases h
    next is his =>
      obtain ⟨js, hjs, h⟩ := of_bind h
      have hspelled := decodeInstrs_spelled his
      have hall : Forall₂ (fun i j => j.Spelled ∧ RefKept count l.funcs i j) is js := by
        refine ((forall₂_and_left _ _).mpr ⟨hspelled, mapM_eq_ok_iff.mp hjs⟩).imp ?_
        rintro i j ⟨hi, hij⟩
        exact followRef_kept horder hn hi hij
      obtain ⟨hwritten, hkept⟩ := (forall₂_and_left _ _).mp hall.flip
      refine ⟨fun is' his' => ?_, fun hnone => absurd his (hnone is)⟩
      cases his.symm.trans his'
      split at h
      next =>
        obtain ⟨w, hw, hdecode⟩ := decodeInstrs_encodeInstrs hwritten
        cases hw.symm.trans (liftM_abort_eq_ok_iff.mp h)
        exact ⟨js, hdecode, hkept.flip⟩
      next hnone =>
        cases h
        refine ⟨is, his, forall₂_same.mpr fun i hi => refKept_self_iff.mpr fun func hfunc => ?_⟩
        subst hfunc
        exact absurd (any_eq_true.mpr ⟨_, hi, rfl⟩) hnone

end Follow

theorem Folds.takes_tables {u q : Program} {es : List Wire.Import} (h : Folds Takes u es q) :
    ∃ new, q.tables = u.tables ++ new ∧
      Forall₂ (fun e t => DescribesTable t e.1) (es.filterMap Wire.Import.table?) new := by
  induction h with
  | nil => exact ⟨[], (append_nil _).symm, .nil⟩
  | cons htakes _ ih =>
    obtain ⟨new, htables, hall⟩ := ih
    cases htakes with
    | table helem =>
      exact ⟨_ :: new, htables.trans (append_assoc _ _ _), .cons ⟨helem, rfl, rfl⟩ hall⟩
    | func | tag | memory | global | other => exact ⟨new, htables, hall⟩

section Kept

variable {m out : Wire.Module} {p q s r : Program} {tables : List Table} {exports : List Export}
  {issued : List Binding} {bodies : List (UInt32 × Wire.FuncBody)} {extra : List ValType}
  {names : List Wire.Custom}

theorem ReadFrom.tables_described (h : ReadFrom m p q s tables exports) :
    Forall₂ (fun e t => DescribesTable t e.1) m.tableSpace p.tables := by
  obtain ⟨types, -, himports⟩ := h.assembles.imports
  obtain ⟨new, hnew, hall⟩ := himports.takes_tables
  have htables : p.tables = q.tables ++ tables := by
    rw [h.parts]
    rfl
  have hempty : ({ types } : Program).tables = [] := rfl
  rw [htables, hnew, hempty, nil_append]
  refine rel_append hall ?_
  rw [forall₂_map_left_iff]
  refine h.assembles.tabled.imp ?_
  rintro t table ⟨elem, helem, rfl⟩
  exact ⟨helem, rfl, rfl⟩

theorem ReadFrom.table_init (hr : ReadFrom m p q s tables exports) (h : p.Keeps r)
    (hout : r.LoweredTo out) {id : Nat} {t : TableType × Origin Unit}
    (ht : m.tableSpace[id]? = some t) :
    ∃ u, out.tableSpace[r.numbering.tables.idxOf id]? = some u ∧ u.1.init = t.1.init := by
  obtain ⟨table, htable, -, -, hinit⟩ := forall₂_getElem? hr.tables_described ht
  obtain ⟨type, origin, hu, ⟨-, -, hinit'⟩, -⟩ :=
    hout.tables.2 id table (getElem?_of_isPrefix h.tables htable)
  exact ⟨_, hu, hinit'.trans hinit.symm⟩

theorem Emits.globals_kept (he : r.Emits out bodies extra names) (hr : r.Paired)
    (hn : r.funcs.length ≤ 2 ^ 32) {count : Nat} (hcount : count ≤ r.funcs.length) :
    Forall₂ (fun g h => ExprKept count r.numbering.funcs g.init h.init) r.globals
      out.globals := by
  refine zipIdx_mapM_eq_ok he.globals fun i g found hfound => ?_
  obtain ⟨init, hinit, hfound⟩ := of_bind hfound
  cases hfound
  exact followExpr_kept (hr.order_perm .func) hn hcount (emitting_eq_ok_iff.mp hinit)

theorem Emits.elements_kept (he : r.Emits out bodies extra names) (hr : r.Paired)
    (hn : r.funcs.length ≤ 2 ^ 32) {count : Nat} (hcount : count ≤ r.funcs.length) :
    Forall₂ (fun e f => f.offset = e.offset ∧
      Forall₂ (ExprKept count r.numbering.funcs) e.exprs f.exprs) r.elements out.elements := by
  refine zipIdx_mapM_eq_ok he.elements fun i e found hfound => ?_
  obtain ⟨funcs, -, hfound⟩ := of_bind (emitting_eq_ok_iff.mp hfound)
  obtain ⟨exprs, hexprs, hfound⟩ := of_bind hfound
  cases hfound
  refine ⟨rfl, (mapM_eq_ok_iff.mp hexprs).imp fun expr found hfound => ?_⟩
  exact followExpr_kept (hr.order_perm .func) hn hcount hfound

/-- Constant expressions that are written as they were read keep their functions exactly if these
have not moved. -/
theorem exprKept_fixed_iff (hp : p.Ordered) (h : p.Keeps r) (hr : r.Paired) {exprs : List Bytes} :
    (∀ expr ∈ exprs, ExprKept p.funcs.length r.numbering.funcs expr expr) ↔
      (r.importedCount .func = p.importedCount .func ∨
        ∀ expr ∈ exprs, ∀ is, decodeInstrs expr = .ok is → ∀ func, ⟨0xD2, .refFunc func⟩ ∈ is →
          func.toNat < p.funcs.length → func.toNat < p.importedCount .func) := by
  constructor
  · intro hkept
    by_cases hsame : r.importedCount .func = p.importedCount .func
    · exact .inl hsame
    · refine .inr fun expr hexpr is his func hfunc hlt => ?_
      have hself := exprKept_self_iff.mp (hkept expr hexpr) is his func hfunc hlt
      exact ((h.denotes_self_iff hp hr .func hlt).mp hself).resolve_left hsame
  · intro hplace expr hexpr
    refine exprKept_self_iff.mpr fun is his func hfunc hlt => ?_
    refine (h.denotes_self_iff hp hr .func hlt).mpr ?_
    exact hplace.imp id fun hbefore => hbefore expr hexpr is his func hfunc hlt

/-- The constant expressions of a module are kept if those are that are written as they were read.
-/
theorem ReadFrom.keepsConstants_iff (hread : ReadFrom m p q s tables exports)
    (h : Reaches p issued r) (hout : r.toModule = .ok out) (hn : r.funcs.length ≤ 2 ^ 32) :
    m.KeepsConstants out p.funcs.length r.numbering ↔
      ∀ expr ∈ m.fixedConstants, ExprKept p.funcs.length r.numbering.funcs expr expr := by
  obtain ⟨bodies, extra, names, he⟩ := toModule_eq_ok_iff.mp hout
  have hkeeps := h.keeps
  have hpaired := h.paired hread.paired
  have hcount := hkeeps.funcs.length_le
  have hlowered := he.loweredTo hpaired (h.carriesOthers hread.carriesOthers)
  obtain ⟨hglobals, helements, hdata⟩ :
      r.globals = m.globals ∧ r.elements = m.elements ∧ out.data = m.data := by
    rw [he.data, h.rest, hread.parts]
    exact ⟨rfl, rfl, rfl⟩
  have hfollowed := he.elements_kept hpaired hn hcount
  rw [helements] at hfollowed
  rw [Wire.Module.forall_fixedConstants]
  constructor
  · intro hkept
    refine ⟨fun e he => ?_, fun d hd => ?_, fun t ht => ?_⟩
    · obtain ⟨k, hk⟩ := getElem?_of_mem he
      obtain ⟨f, hf, hoffset, -⟩ := forall₂_getElem? hfollowed hk
      obtain ⟨f', hf', hexpr, -⟩ := forall₂_getElem? hkept.elements hk
      cases hf.symm.trans hf'
      rwa [hoffset] at hexpr
    · have hall := hkept.data
      rw [hdata] at hall
      exact forall₂_same.mp hall d hd
    · obtain ⟨k, hk⟩ := getElem?_of_mem ht
      obtain ⟨u, hu, hinit⟩ := hread.table_init hkeeps hlowered hk
      obtain ⟨u', hu', hexpr⟩ := hkept.tables k t hk
      cases hu.symm.trans hu'
      rwa [hinit] at hexpr
  · rintro ⟨hoffsets, hstarts, hinits⟩
    refine ⟨hglobals ▸ he.globals_kept hpaired hn hcount, ?_, ?_, fun id t ht => ?_⟩
    · refine ((forall₂_and_left _ _).mpr ⟨hoffsets, hfollowed⟩).imp ?_
      rintro e f ⟨he, hoffset, hexprs⟩
      rw [hoffset]
      exact ⟨he, hexprs⟩
    · rw [hdata]
      exact forall₂_same.mpr hstarts
    · obtain ⟨u, hu, hinit⟩ := hread.table_init hkeeps hlowered ht
      refine ⟨u, hu, ?_⟩
      rw [hinit]
      exact hinits t (mem_of_getElem? ht)

end Kept

/-- Whatever is added to a module that was read, its constant expressions stay the same and their
functions keep their identifiers, exactly if no function import is added or only imported functions
are referred to by initial values of tables and by the places where segments begin. -/
theorem constants_kept_iff {m out : Wire.Module} {p r : Program} {issued : List Binding}
    (hp : ofModule m = .ok p) (h : Reaches p issued r) (hout : r.toModule = .ok out)
    (hn : r.funcs.length ≤ 2 ^ 32) :
    m.KeepsConstants out p.funcs.length r.numbering ↔
      (r.importedCount .func = p.importedCount .func ∨
        ∀ expr ∈ m.fixedConstants, ∀ is, decodeInstrs expr = .ok is →
          ∀ func, ⟨0xD2, .refFunc func⟩ ∈ is → func.toNat < p.funcs.length →
            func.toNat < p.importedCount .func) := by
  obtain ⟨q, s, tables, exports, hread⟩ := ofModule_eq_ok hp
  rw [hread.keepsConstants_iff h hout hn]
  exact exprKept_fixed_iff hread.ordered h.keeps (h.paired hread.paired)

/-- An imported function and one that is defined. A global and an element refer to the second, and
the initial value of a table to either. -/
def anchored (func : UInt8) : Wire.Module where
  types := [⟨[], [], [], []⟩]
  imports := [⟨"host", "first", .func 0⟩]
  funcs := [0]
  tables := [⟨0x70, none, ⟨1, none, false, false⟩, [0xD2, func, 0x0B]⟩]
  globals := [⟨⟨0x70, none, false⟩, [0xD2, 0x01, 0x0B]⟩]
  elements := [⟨4, 0, [0x41, 0x00, 0x0B], 0, 0, none, [], [[0xD2, 0x01, 0x0B]]⟩]
  code := [⟨[], [0x0B]⟩]

theorem anchored_grown (func : UInt8) (hfunc : func = 0 ∨ func = 1) : ∃ p r out issued,
    ofModule (anchored func) = .ok p ∧ Reaches p issued r ∧ r.toModule = .ok out ∧
      p.funcs.length = 2 ∧ p.importedCount .func = 1 ∧ r.funcs.length = 3 ∧
      r.importedCount .func = 2 := by
  have hrun : ((ofModule (anchored func)).toOption.any fun p =>
      ((p.importFunction "host" "second" 0).2.toModule.toOption.any fun _ => true) &&
        (p.funcs.length == 2 && p.importedCount .func == 1)) = true := by
    rcases hfunc with rfl | rfl <;> decide +kernel
  obtain ⟨p, hp, hrun⟩ := any_toOption_iff.mp hrun
  simp only [Bool.and_eq_true, beq_iff_eq] at hrun
  obtain ⟨hout, hfuncs, hcount⟩ := hrun
  obtain ⟨out, hout, -⟩ := any_toOption_iff.mp hout
  refine ⟨p, _, out, _, hp, .add .start (.importFunction "host" "second" 0 rfl), hout, hfuncs, hcount,
    by simp [hfuncs], ?_⟩
  simp only [importedCount, filterMap_append, length_append] at hcount ⊢
  rw [hcount]
  rfl

theorem anchored_zero_kept : ∃ p r out issued, ofModule (anchored 0) = .ok p ∧ Reaches p issued r ∧
    r.toModule = .ok out ∧ r.importedCount .func ≠ p.importedCount .func ∧
    (anchored 0).KeepsConstants out p.funcs.length r.numbering := by
  obtain ⟨p, r, out, issued, hp, h, hout, hfuncs, hcount, hlength, hcount'⟩ :=
    anchored_grown 0 (.inl rfl)
  refine ⟨p, r, out, issued, hp, h, hout, by omega, ?_⟩
  refine (constants_kept_iff hp h hout (by omega)).mpr (.inr ?_)
  have hoffset : decodeInstrs [0x41, 0x00, 0x0B] = .ok [⟨0x41, .i32 0⟩, ⟨0x0B, .none⟩] := by rfl
  have hinit : decodeInstrs [0xD2, 0x00, 0x0B] = .ok [⟨0xD2, .refFunc 0⟩, ⟨0x0B, .none⟩] := by rfl
  rw [Wire.Module.forall_fixedConstants, hcount]
  refine ⟨forall_mem_singleton.mpr fun is his func hfunc _ => ?_, fun d hd => absurd hd not_mem_nil,
    forall_mem_singleton.mpr fun is his func hfunc _ => ?_⟩
  · cases hoffset.symm.trans his
    simp at hfunc
  · cases hinit.symm.trans his
    obtain rfl : func = 0 := by simpa using hfunc
    decide

theorem anchored_one_moved : ∃ p r out issued, ofModule (anchored 1) = .ok p ∧ Reaches p issued r ∧
    r.toModule = .ok out ∧ ¬ (anchored 1).KeepsConstants out p.funcs.length r.numbering := by
  obtain ⟨p, r, out, issued, hp, h, hout, hfuncs, hcount, hlength, hcount'⟩ :=
    anchored_grown 1 (.inr rfl)
  obtain ⟨q, s, tables, exports, hread⟩ := ofModule_eq_ok hp
  refine ⟨p, r, out, issued, hp, h, hout, fun hkept => ?_⟩
  rw [hread.keepsConstants_iff h hout (by omega),
    exprKept_fixed_iff hread.ordered h.keeps (h.paired hread.paired), hcount, hcount', hfuncs] at hkept
  have hinit : decodeInstrs [0xD2, 0x01, 0x0B] = .ok [⟨0xD2, .refFunc 1⟩, ⟨0x0B, .none⟩] := by rfl
  have hplace := (hkept.resolve_left (by decide)) [0xD2, 0x01, 0x0B] (by decide) _ hinit 1 (by decide)
  exact absurd (hplace (by decide)) (by decide)

end Program

end HostCatch
