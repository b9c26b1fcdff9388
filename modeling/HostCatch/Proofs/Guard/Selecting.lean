import HostCatch.Proofs.Guard.Flagging
import HostCatch.Proofs.Guard.Framing

namespace HostCatch

open List

namespace Program

/-- The imported functions, in the order in which they are given adapters. -/
def importedFuncs (p : Program) : List (Import × ImportId × FuncId) :=
  p.imports.zipIdx.filterMap fun e => e.1.func?.map fun func => (e.1, e.2, func)

variable {p : Program}

variable {id : FuncId} {matcher : Matcher}

theorem mem_importedFuncs_iff {i : Import} :
    (∃ entry, (i, entry, id) ∈ p.importedFuncs) ↔ i ∈ p.imports ∧ i.func? = some id := by
  simp only [importedFuncs, mem_filterMap, Option.map_eq_some_iff]
  constructor
  · rintro ⟨entry, ⟨i', _⟩, hmem, _, hfunc, ⟨⟩⟩
    exact ⟨mem_of_getElem? (mk_mem_zipIdx_iff_getElem?.mp hmem), hfunc⟩
  · rintro ⟨hi, hfunc⟩
    obtain ⟨entry, hentry⟩ := getElem?_of_mem hi
    exact ⟨entry, (i, entry), mk_mem_zipIdx_iff_getElem?.mpr hentry, id, hfunc, rfl⟩

theorem mem_adapters_iff {a : Adapter} : a ∈ (p.bind matcher).2 ↔
    ∃ i, p.importedFuncs[a.id]? = some (i, a.entry, a.func) := by
  change a ∈ p.importedFuncs.zipIdx.map (fun e => (⟨e.1.2.1, e.1.2.2, e.2⟩ : Adapter)) ↔ _
  rw [mem_map]
  constructor
  · rintro ⟨⟨⟨i, entry, func⟩, n⟩, hmem, rfl⟩
    exact ⟨i, mk_mem_zipIdx_iff_getElem?.mp hmem⟩
  · rintro ⟨i, hi⟩
    exact ⟨((i, a.entry, a.func), a.id), mk_mem_zipIdx_iff_getElem?.mpr hi, rfl⟩

theorem mem_catching_iff {n : Nat} : n ∈ (p.bind matcher).1.catching ↔
    ∃ e, p.importedFuncs[n]? = some e ∧ matcher.accepts e.1.module e.1.name = true := by
  change n ∈ p.importedFuncs.zipIdx.filterMap (fun e =>
    if matcher.accepts e.1.1.module e.1.1.name then some e.2 else none) ↔ _
  rw [mem_filterMap]
  constructor
  · rintro ⟨⟨e, n'⟩, hmem, hn⟩
    obtain ⟨haccepts, ⟨⟩⟩ := Option.ite_none_right_eq_some.mp hn
    exact ⟨e, mk_mem_zipIdx_iff_getElem?.mp hmem, haccepts⟩
  · rintro ⟨e, he, haccepts⟩
    exact ⟨(e, n), mk_mem_zipIdx_iff_getElem?.mpr he, if_pos haccepts⟩

/-- What is selected are the imported functions that the matcher accepts. -/
theorem mem_selected_iff {c : Config} : id ∈ p.selected c ↔
    ∃ i ∈ p.imports, i.func? = some id ∧ c.matcher.accepts i.module i.name = true := by
  rw [selected, Metadata.mem_flagged_iff]
  constructor
  · rintro ⟨a, ha, hid, rfl⟩
    obtain ⟨i, hi⟩ := mem_adapters_iff.mp ha
    obtain ⟨e, he, haccepts⟩ := mem_catching_iff.mp hid
    cases hi.symm.trans he
    obtain ⟨himports, hfunc⟩ := mem_importedFuncs_iff.mp ⟨_, mem_of_getElem? hi⟩
    exact ⟨i, himports, hfunc, haccepts⟩
  · rintro ⟨i, hi, hfunc, haccepts⟩
    obtain ⟨entry, hmem⟩ := mem_importedFuncs_iff.mpr ⟨hi, hfunc⟩
    obtain ⟨n, hn⟩ := getElem?_of_mem hmem
    exact ⟨⟨entry, id, n⟩, mem_adapters_iff.mpr ⟨i, hn⟩, mem_catching_iff.mpr ⟨_, hn, haccepts⟩, rfl⟩

/-- A report names an import as the program does that it was made for. -/
theorem Rewrapped.wrapped_import {o : Outcome} {tag : TagId} {handles : Handles}
    {new : Option TagImport} {types : List Signature} {more : List Function}
    (hx : p.Rewrapped o tag handles new types more) (hp : p.Paired) {i : Import}
    (hi : i ∈ p.imports) (hid : i.func? = some id) :
    (o.wrapped id).module = i.module ∧ (o.wrapped id).name = i.name := by
  obtain ⟨entry, hentry⟩ := getElem?_of_mem hi
  obtain ⟨f, hf, himport⟩ := hp.funcs.entity hentry hid
  have hkept : o.program.imports[entry]? = some i := by
    rw [hx.altered.imports_eq]
    exact getElem?_append_some _ hentry
  have hnamed : o.program.importOf? id = some i := by
    simp [importOf?, hx.altered.funcs_kept hf, Function.import?_redirect, himport, hkept]
  rw [Outcome.wrapped, hnamed]
  exact ⟨rfl, rfl⟩

/-- Nothing is done where nothing is selected. -/
theorem transform_eq_none {c : Config} (h : p.transform c = .ok none) :
    p.selected c = [] := by
  have hselected : (p.bind c.matcher).1.flagged (p.bind c.matcher).2 = p.selected c := rfl
  unfold transform at h
  simp only [hselected] at h
  by_contra hnone
  simp only [if_neg hnone, bind_eq_ok_iff, pure_eq_ok_iff] at h
  obtain ⟨_, -, _, -, _, -, h⟩ := h
  cases h

end Program

theorem Import.eq_func_of_func? {i : Import} {id : FuncId} (h : i.func? = some id) :
    i = ⟨i.module, i.name, .func id⟩ := by
  obtain ⟨module, name, target⟩ := i
  cases target with
  | func =>
    cases h
    rfl
  | _ => cases h

/-- A report tells of the imported functions that the matcher accepts, and of no others. -/
theorem transform_wrapped_iff {data out : Bytes} {c : Config} {report : Report}
    (h : transform data c = .ok (out, report)) : ∃ p, Program.parse data = .ok p ∧
      ∀ module name id, (∃ w ∈ report.wrapped, w.module = module ∧ w.name = name ∧ w.func = id) ↔
        ⟨module, name, .func id⟩ ∈ p.imports ∧ c.matcher.accepts module name = true := by
  simp only [transform, bind_eq_ok_iff, liftM_fault_eq_ok_iff] at h
  obtain ⟨p, hp, result, hresult, h⟩ := h
  refine ⟨p, hp, fun module name id => ?_⟩
  cases result with
  | none =>
    cases h
    have hnone := Program.transform_eq_none hresult
    constructor
    · rintro ⟨_, hw, -⟩
      cases hw
    · rintro ⟨hi, haccepts⟩
      have hmem := Program.mem_selected_iff.mpr ⟨_, hi, rfl, haccepts⟩
      rw [hnone] at hmem
      cases hmem
  | some result =>
    cases h
    obtain ⟨hselected, strategy, o, -, ho, -, rfl⟩ := Program.transform_eq_some_iff.mp hresult
    obtain ⟨m, -, hm⟩ := Program.parse_eq_ok_iff.mp hp
    obtain ⟨q, s, tables, exports, hr⟩ := Program.ofModule_eq_ok hm
    obtain ⟨tag, handles, new, types, more, -, hflagged, -, hx⟩ := hr.rewrapped hselected ho
    have hflagged : o.flagged = p.selected c := hflagged
    constructor
    · rintro ⟨_, hw, rfl, rfl, rfl⟩
      obtain ⟨id, hid, rfl⟩ := mem_map.mp hw
      obtain ⟨i, hi, hfunc, haccepts⟩ := Program.mem_selected_iff.mp (hflagged ▸ hid)
      obtain ⟨hmodule, hname⟩ := hx.wrapped_import hr.paired hi hfunc
      rw [hmodule, hname]
      exact ⟨i.eq_func_of_func? hfunc ▸ hi, haccepts⟩
    · rintro ⟨hi, haccepts⟩
      have hid := Program.mem_selected_iff.mpr ⟨_, hi, rfl, haccepts⟩
      obtain ⟨hmodule, hname⟩ := hx.wrapped_import hr.paired hi rfl
      exact ⟨_, mem_map_of_mem (hflagged ▸ hid), hmodule, hname, rfl⟩

end HostCatch
