import HostCatch.Program.OfModule
import HostCatch.Proofs.Success

namespace HostCatch

open List

namespace Program

open Wire

section Folding

variable {α : Type}

/-- The programs that entries of a list lead to, one after the other. -/
inductive Folds (R : Program → α → Program → Prop) : Program → List α → Program → Prop
  | nil {p} : Folds R p [] p
  | cons {p a q as r} : R p a q → Folds R q as r → Folds R p (a :: as) r

variable {R : Program → α → Program → Prop} {as : List α} {p r : Program}

theorem foldlM_eq_ok_iff {f : Program → α → Except Fault Program}
    (h : ∀ p a q, f p a = .ok q ↔ R p a q) : as.foldlM f p = .ok r ↔ Folds R p as r := by
  induction as generalizing p with
  | nil =>
    refine ⟨fun hp => ?_, fun hp => ?_⟩
    · cases hp
      exact .nil
    · cases hp
      rfl
  | cons a as ih =>
    rw [foldlM_cons, bind_eq_ok_iff]
    refine ⟨fun ⟨q, hq, hrest⟩ => .cons ((h _ _ _).mp hq) (ih.mp hrest), fun hp => ?_⟩
    cases hp with
    | cons hq hrest => exact ⟨_, (h _ _ _).mpr hq, ih.mpr hrest⟩

theorem Folds.append {as' : List α} {q : Program} (h : Folds R p as q) (h' : Folds R q as' r) :
    Folds R p (as ++ as') r := by
  induction h with
  | nil => exact h'
  | cons hq _ ih => exact .cons hq (ih h')

theorem folds_map_iff {β : Type} {R : Program → β → Program → Prop} {g : α → β} :
    Folds (fun p a => R p (g a)) p as r ↔ Folds R p (as.map g) r := by
  refine ⟨fun h => ?_, fun h => ?_⟩
  · induction h with
    | nil => exact .nil
    | cons hq _ ih => exact .cons hq ih
  · induction as generalizing p with
    | nil =>
      cases h
      exact .nil
    | cons a as ih =>
      cases h with
      | cons hq hrest => exact .cons hq (ih hrest)

theorem foldNumbered_eq_ok_iff {f : Program → Nat → α → Except Fault Program}
    (h : ∀ p i a q, f p i a = .ok q ↔ R p a q) : foldNumbered f p as = .ok r ↔ Folds R p as r := by
  have hfold : foldNumbered f p as = .ok r ↔ Folds (fun p (a : α × Nat) => R p a.1) p as.zipIdx r :=
    foldlM_eq_ok_iff fun p a q => h p a.2 a.1 q
  rwa [folds_map_iff, zipIdx_map_fst] at hfold

theorem foldNumbered_append (f : Program → Nat → α → Except Fault Program) (p : Program)
    (as as' : List α) : foldNumbered f p (as ++ as') = (do
      let q ← foldNumbered f p as
      foldNumbered (fun p i => f p (as.length + i)) q as') := by
  have hrest : as'.zipIdx as.length = as'.zipIdx.map fun e => (e.1, as.length + e.2) := by
    refine ext_getElem? fun k => ?_
    simp [getElem?_zipIdx, Function.comp_def]
  simp only [foldNumbered, zipIdx_append, foldlM_append, Nat.zero_add, hrest, foldlM_map]

section Adding

variable {β : Type} (put : List β → Program) (Entry : α → β → Prop)

theorem foldlM_append_iff {f : Program → α → Except Fault Program}
    (h : ∀ bs a q, f (put bs) a = .ok q ↔ ∃ b, Entry a b ∧ q = put (bs ++ [b])) {bs : List β} :
    as.foldlM f (put bs) = .ok r ↔ ∃ new, Forall₂ Entry as new ∧ r = put (bs ++ new) := by
  induction as generalizing bs with
  | nil =>
    simp only [foldlM_nil, pure_eq_ok_iff, forall₂_nil_left_iff, exists_eq_left, append_nil]
    exact eq_comm
  | cons a as ih =>
    rw [foldlM_cons, bind_eq_ok_iff]
    constructor
    · rintro ⟨q, hq, hrest⟩
      obtain ⟨b, hb, rfl⟩ := (h _ _ _).mp hq
      obtain ⟨new, hnew, rfl⟩ := ih.mp hrest
      exact ⟨b :: new, .cons hb hnew, by rw [append_assoc, singleton_append]⟩
    · rintro ⟨new, hnew, hr⟩
      cases hnew with
      | @cons _ b _ new hb hnew =>
        refine ⟨_, (h _ _ _).mpr ⟨b, hb, rfl⟩, ih.mpr ⟨new, hnew, ?_⟩⟩
        rw [hr, append_assoc, singleton_append]

theorem foldNumbered_append_iff {f : Program → Nat → α → Except Fault Program}
    (h : ∀ bs i a q, f (put bs) i a = .ok q ↔ ∃ b, Entry a b ∧ q = put (bs ++ [b])) {bs : List β} :
    foldNumbered f (put bs) as = .ok r ↔ ∃ new, Forall₂ Entry as new ∧ r = put (bs ++ new) := by
  have hfold : foldNumbered f (put bs) as = .ok r ↔
      ∃ new, Forall₂ (fun (a : α × Nat) b => Entry a.1 b) as.zipIdx new ∧ r = put (bs ++ new) :=
    foldlM_append_iff put (fun (a : α × Nat) b => Entry a.1 b) fun bs a q => h bs a.2 a.1 q
  rw [hfold]
  refine exists_congr fun new => and_congr_left' ?_
  rw [← forall₂_map_left_iff, zipIdx_map_fst]

end Adding

theorem Folds.induction {motive : Program → Prop} (h : Folds R p as r) (initial : motive p)
    (step : ∀ p a q, motive p → R p a q → motive q) : motive r := by
  induction h with
  | nil => exact initial
  | cons hq _ ih => exact ih (step _ _ _ initial hq)

end Folding

variable {p q r : Program}

theorem forall₂_and_eq_iff {α β : Type} {P : α → Prop} {g : α → β} {as : List α} {bs : List β} :
    Forall₂ (fun a b => P a ∧ b = g a) as bs ↔ (∀ a ∈ as, P a) ∧ bs = as.map g := by
  induction as generalizing bs with
  | nil => simp
  | cons a as ih =>
    rw [forall₂_cons_left_iff]
    simp only [ih, forall_mem_cons, map_cons]
    constructor
    · rintro ⟨_, _, ⟨ha, rfl⟩, ⟨has, rfl⟩, rfl⟩
      exact ⟨⟨ha, has⟩, rfl⟩
    · rintro ⟨⟨ha, has⟩, rfl⟩
      exact ⟨_, _, ⟨ha, rfl⟩, ⟨has, rfl⟩, rfl⟩

theorem foldNumbered_map_iff {α β : Type} {f : Program → Nat → α → Except Fault Program}
    {P : α → Prop} (put : List β → Program) (g : α → β)
    (h : ∀ bs i a q, f (put bs) i a = .ok q ↔ P a ∧ q = put (bs ++ [g a])) {as : List α}
    {bs : List β} :
    foldNumbered f (put bs) as = .ok r ↔ (∀ a ∈ as, P a) ∧ r = put (bs ++ as.map g) := by
  refine (foldNumbered_append_iff put (fun a b => P a ∧ b = g a) fun bs i a q => ?_).trans ?_
  · simp [h]
  · simp [forall₂_and_eq_iff, and_assoc]

/-- What reading an import adds to a program. -/
inductive Takes (p : Program) : Wire.Import → Program → Prop
  | func {module name type} : type.toNat < p.types.length →
      Takes p ⟨module, name, .func type⟩ { p with
        imports := p.imports ++ [⟨module, name, .func p.funcs.length⟩]
        funcs := p.funcs ++ [⟨[], type.toNat, .imported p.imports.length⟩] }
  | table {module name t elem} : elemOf t = .ok elem →
      Takes p ⟨module, name, .table (some t)⟩ { p with
        imports := p.imports ++ [⟨module, name, .table p.tables.length⟩]
        tables := p.tables ++ [⟨elem, t.limits, t.init, some p.imports.length⟩] }
  | tag {module name t} :
      Takes p ⟨module, name, .tag (some t)⟩ { p with
        imports := p.imports ++ [⟨module, name, .tag p.tags.length⟩]
        tags := p.tags ++ [⟨t.type.toNat, t.attr, some p.imports.length⟩] }
  | memory {module name limits} :
      Takes p ⟨module, name, .memory limits⟩ { p with
        imports := p.imports ++ [⟨module, name, .carried (.memory limits)⟩] }
  | global {module name type} :
      Takes p ⟨module, name, .global type⟩ { p with
        imports := p.imports ++ [⟨module, name, .carried (.global type)⟩] }
  | other {module name kind type} :
      Takes p ⟨module, name, .other kind type⟩ { p with
        imports := p.imports ++ [⟨module, name, .carried (.other kind type)⟩] }

theorem checkBound_eq_ok_iff {path : List Bytes} {index bound n : Nat} :
    checkBound path index bound = .ok n ↔ index < bound ∧ n = index := by
  unfold checkBound
  split
  next h => simp [h, eq_comm]
  next h => simp [h]

theorem wrapping_eq_ok_iff {α : Type} {detail : String} {x : Except Fault α} {a : α} :
    wrapping detail x = .ok a ↔ x = .ok a := by
  cases x <;> simp [wrapping]

theorem takeImport_eq_ok_iff {i : Nat} {e : Wire.Import} :
    takeImport p i e = .ok q ↔ Takes p e q := by
  obtain ⟨module, name, desc⟩ := e
  unfold takeImport
  constructor
  · intro h
    cases desc with
    | func type =>
      obtain ⟨n, hn, h⟩ := of_bind h
      obtain ⟨hlt, rfl⟩ := checkBound_eq_ok_iff.mp hn
      cases h
      exact .func hlt
    | table t =>
      cases t with
      | none => cases h
      | some t =>
        obtain ⟨elem, helem, h⟩ := of_bind h
        cases h
        exact .table (wrapping_eq_ok_iff.mp helem)
    | tag t =>
      cases t with
      | none => cases h
      | some t =>
        cases h
        exact .tag
    | memory limits => cases h; exact .memory
    | global type => cases h; exact .global
    | other kind type => cases h; exact .other
  · intro h
    cases h with
    | func hlt => simp [checkBound_eq_ok_iff.mpr ⟨hlt, rfl⟩]
    | table helem => simp [wrapping_eq_ok_iff.mpr helem]
    | _ => rfl

theorem takeImports_eq_ok_iff {es : List Wire.Import} :
    foldNumbered takeImport p es = .ok r ↔ Folds Takes p es r :=
  foldNumbered_eq_ok_iff (f := takeImport) (R := Takes) fun _ _ _ _ => takeImport_eq_ok_iff

/-- The function that a declaration stands for, before its body is read. -/
def declared (type : UInt32) : Function :=
  ⟨[], type.toNat, .defined {}⟩

theorem takeFuncs_eq_ok_iff {types : List UInt32} :
    foldNumbered takeFunc p types = .ok r ↔ (∀ t ∈ types, t.toNat < p.types.length) ∧
      r = { p with funcs := p.funcs ++ types.map declared } :=
  foldNumbered_map_iff (fun funcs => { p with funcs }) declared fun _ _ _ _ => by
    simp only [takeFunc, bind_eq_ok_iff, checkBound_eq_ok_iff, and_assoc, exists_and_left,
      exists_eq_left, pure_eq_ok_iff]
    exact and_congr_right fun _ => eq_comm

/-- The table that a description stands for. -/
def Tabled (t : TableType) (table : Table) : Prop :=
  ∃ elem, elemOf t = .ok elem ∧ table = ⟨elem, t.limits, t.init, none⟩

theorem takeTables_eq_ok_iff {types : List TableType} :
    foldNumbered takeTable p types = .ok r ↔ ∃ tables, Forall₂ Tabled types tables ∧
      r = { p with tables := p.tables ++ tables } := by
  refine foldNumbered_append_iff (fun tables => { p with tables }) Tabled fun bs i t q => ?_
  simp only [takeTable, bind_eq_ok_iff, wrapping_eq_ok_iff, pure_eq_ok_iff, Tabled]
  constructor
  · rintro ⟨elem, helem, rfl⟩
    exact ⟨_, ⟨elem, helem, rfl⟩, rfl⟩
  · rintro ⟨_, ⟨elem, helem, rfl⟩, rfl⟩
    exact ⟨elem, helem, rfl⟩

/-- The tag that a description stands for. -/
def tagged (t : TagType) : Tag :=
  ⟨t.type.toNat, t.attr, none⟩

theorem takeTags_eq_ok_iff {types : List TagType} :
    foldNumbered takeTag p types = .ok r ↔ (∀ t ∈ types, t.type.toNat < p.types.length) ∧
      r = { p with tags := p.tags ++ types.map tagged } :=
  foldNumbered_map_iff (fun tags => { p with tags }) tagged fun _ _ _ _ => by
    simp only [takeTag, bind_eq_ok_iff, checkBound_eq_ok_iff, and_assoc, exists_and_left,
      exists_eq_left, pure_eq_ok_iff]
    exact and_congr_right fun _ => eq_comm

/-- What an exported index stands for. -/
inductive Exported (p : Program) (e : Wire.Export) : Export → Prop
  | func : e.kind = EntityCode.func → e.index.toNat < p.funcs.length →
      Exported p e ⟨e.name, .func e.index.toNat⟩
  | table : e.kind = EntityCode.table → e.index.toNat < p.tables.length →
      Exported p e ⟨e.name, .table e.index.toNat⟩
  | tag : e.kind = EntityCode.tag → e.index.toNat < p.tags.length →
      Exported p e ⟨e.name, .tag e.index.toNat⟩
  | other : e.kind ≠ EntityCode.func → e.kind ≠ EntityCode.table → e.kind ≠ EntityCode.tag →
      Exported p e ⟨e.name, .other e.kind e.index⟩

theorem Exported.congr {e : Wire.Export} {x : Export} (h : Exported p e x)
    (hfuncs : q.funcs.length = p.funcs.length) (htables : q.tables.length = p.tables.length)
    (htags : q.tags.length = p.tags.length) : Exported q e x := by
  cases h with
  | func hkind hlt => exact .func hkind (hfuncs ▸ hlt)
  | table hkind hlt => exact .table hkind (htables ▸ hlt)
  | tag hkind hlt => exact .tag hkind (htags ▸ hlt)
  | other hfunc htable htag => exact .other hfunc htable htag

theorem takeExport_eq_ok_iff {e : Wire.Export} : takeExport p e = .ok q ↔
      ∃ x, Exported p e x ∧ q = { p with exports := p.exports ++ [x] } := by
  constructor
  · intro h
    unfold takeExport at h
    dsimp only at h
    split at h
    next hkind =>
      obtain ⟨target, htarget, h⟩ := of_bind h
      obtain ⟨n, hn, rfl⟩ := map_eq_ok_iff.mp htarget
      obtain ⟨hlt, rfl⟩ := checkBound_eq_ok_iff.mp hn
      exact ⟨_, .func hkind hlt, (pure_eq_ok_iff.mp h).symm⟩
    next hfunc =>
      split at h
      next hkind =>
        obtain ⟨target, htarget, h⟩ := of_bind h
        obtain ⟨n, hn, rfl⟩ := map_eq_ok_iff.mp htarget
        obtain ⟨hlt, rfl⟩ := checkBound_eq_ok_iff.mp hn
        exact ⟨_, .table hkind hlt, (pure_eq_ok_iff.mp h).symm⟩
      next htable =>
        split at h
        next hkind =>
          obtain ⟨target, htarget, h⟩ := of_bind h
          obtain ⟨n, hn, rfl⟩ := map_eq_ok_iff.mp htarget
          obtain ⟨hlt, rfl⟩ := checkBound_eq_ok_iff.mp hn
          exact ⟨_, .tag hkind hlt, (pure_eq_ok_iff.mp h).symm⟩
        next htag => exact ⟨_, .other hfunc htable htag, (pure_eq_ok_iff.mp h).symm⟩
  · rintro ⟨x, hx, rfl⟩
    unfold takeExport
    have hcheck : ∀ path {n bound}, n < bound → checkBound path n bound = .ok n :=
      fun path _ _ hlt => checkBound_eq_ok_iff.mpr ⟨hlt, rfl⟩
    cases hx with
    | func hkind hlt => simp [hkind, hcheck _ hlt]
    | table hkind hlt =>
      have hfunc : EntityCode.table ≠ EntityCode.func := by decide
      simp [hkind, hcheck _ hlt, hfunc]
    | tag hkind hlt =>
      have hfunc : EntityCode.tag ≠ EntityCode.func := by decide
      have htable : EntityCode.tag ≠ EntityCode.table := by decide
      simp [hkind, hcheck _ hlt, hfunc, htable]
    | other hfunc htable htag => simp [hfunc, htable, htag]

theorem takeExports_eq_ok_iff {es : List Wire.Export} :
    es.foldlM takeExport p = .ok r ↔ ∃ exports, Forall₂ (Exported p) es exports ∧
      r = { p with exports := p.exports ++ exports } := by
  refine foldlM_append_iff (fun exports => { p with exports }) (Exported p) fun bs e q => ?_
  rw [takeExport_eq_ok_iff]
  -- what an index stands for does not depend on the exports before it
  have hsame : ∀ x, Exported { p with exports := bs } e x ↔ Exported p e x := fun x =>
    ⟨fun hx => hx.congr rfl rfl rfl, fun hx => hx.congr rfl rfl rfl⟩
  simp only [hsame]

/-- All of a module but its custom sections and bodies, given what its imports add. -/
def assembled (q : Program) (m : Module) (tables : List Table) (exports : List Export) : Program :=
  { q with
    funcs := q.funcs ++ m.funcs.map declared
    tables := q.tables ++ tables
    tags := q.tags ++ m.tags.map tagged
    exports := q.exports ++ exports
    start := m.start.map UInt32.toNat
    memories := m.memories
    globals := m.globals
    elements := m.elements
    data := m.data
    dataCount := m.dataCount }

/-- A module can be read but for its bodies: its imports lead to `q`, and these are its tables and
exports. -/
structure Assembles (m : Module) (q : Program) (tables : List Table) (exports : List Export) :
    Prop where
  typeDefs : checkTypeDefs m.typeDefs = .ok ()
  imports : ∃ types, mapNumbered signatureOf m.types = .ok types ∧ Folds Takes { types } m.imports q
  bodies : m.funcs.length = m.code.length
  funcTypes : ∀ t ∈ m.funcs, t.toNat < q.types.length
  tabled : List.Forall₂ Tabled m.tables tables
  tagTypes : ∀ t ∈ m.tags, t.type.toNat < q.types.length
  exported : List.Forall₂ (Exported (q.assembled m tables [])) m.exports exports

/-- What a module is read as, but for its bodies. -/
theorem skeleton_eq_ok_iff {m : Module} :
    skeleton m = .ok p ↔ ∃ q tables exports, Assembles m q tables exports ∧
      p = m.customs.foldl takeCustom (q.assembled m tables exports) := by
  constructor
  · intro h
    obtain ⟨_, hdefs, h⟩ := of_bind h
    obtain ⟨types, htypes, h⟩ := of_bind h
    obtain ⟨q, himports, h⟩ := of_bind h
    dsimp only at h
    split at h
    next => cases h
    next hlength =>
      obtain ⟨_, hall, h⟩ := of_bind h
      obtain ⟨hfuncs, rfl⟩ := takeFuncs_eq_ok_iff.mp hall
      obtain ⟨_, hall, h⟩ := of_bind h
      obtain ⟨tables, htables, rfl⟩ := takeTables_eq_ok_iff.mp hall
      obtain ⟨_, hall, h⟩ := of_bind h
      obtain ⟨htags, rfl⟩ := takeTags_eq_ok_iff.mp hall
      obtain ⟨_, hall, h⟩ := of_bind h
      obtain ⟨exports, hexports, rfl⟩ := takeExports_eq_ok_iff.mp hall
      refine ⟨q, tables, exports, ?_, (pure_eq_ok_iff.mp h).symm⟩
      exact {
        typeDefs := hdefs
        imports := ⟨types, htypes, takeImports_eq_ok_iff.mp himports⟩
        bodies := not_ne_iff.mp hlength
        funcTypes := hfuncs
        tabled := htables
        tagTypes := htags
        exported := hexports.imp fun _ _ hx => hx.congr rfl rfl rfl }
  · rintro ⟨q, tables, exports, h, rfl⟩
    obtain ⟨types, htypes, himports⟩ := h.imports
    refine bind_eq_ok_iff.mpr ⟨(), h.typeDefs, bind_eq_ok_iff.mpr ⟨types, htypes, ?_⟩⟩
    refine bind_eq_ok_iff.mpr ⟨q, takeImports_eq_ok_iff.mpr himports, ?_⟩
    rw [if_neg (not_ne_iff.mpr h.bodies)]
    refine bind_eq_ok_iff.mpr ⟨_, takeFuncs_eq_ok_iff.mpr ⟨h.funcTypes, rfl⟩, ?_⟩
    refine bind_eq_ok_iff.mpr ⟨_, takeTables_eq_ok_iff.mpr ⟨tables, h.tabled, rfl⟩, ?_⟩
    refine bind_eq_ok_iff.mpr ⟨_, takeTags_eq_ok_iff.mpr ⟨h.tagTypes, rfl⟩, ?_⟩
    refine bind_eq_ok_iff.mpr ⟨_, takeExports_eq_ok_iff.mpr ⟨exports, ?_, rfl⟩, rfl⟩
    exact h.exported.imp fun _ _ hx => hx.congr rfl rfl rfl

end Program

end HostCatch
