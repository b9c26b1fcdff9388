import HostCatch.Proofs.Program.Coding
import HostCatch.Proofs.Program.Emission

namespace HostCatch

open List

theorem Numbering.index_range_toNat {n : Nat} {i : UInt32} (h : i.toNat < n) :
    index (List.range n) i.toNat = .ok i := by
  rw [index_range h, UInt32.ofNat_toNat]

def Export.retag (τ : TagId → TagId) (x : Export) : Export :=
  { x with target :=
      match x.target with
      | .tag tag => .tag (τ tag)
      | target => target }

theorem Export.retag_id : Export.retag id = id := by
  funext ⟨name, target⟩
  cases target <;> rfl

theorem zipIdx_mapM_eq_ok {ε α β : Type} {f : Nat → α → Except ε β} {R : α → β → Prop}
    {as : List α} {bs : List β} (h : (as.zipIdx.mapM fun (a, i) => f i a) = .ok bs)
    (hf : ∀ i a b, f i a = .ok b → R a b) : Forall₂ R as bs := by
  have hall : Forall₂ R (as.zipIdx.map Prod.fst) bs :=
    forall₂_map_left_iff.mpr ((mapM_eq_ok_iff.mp h).imp fun a b hb => hf a.2 a.1 b hb)
  rwa [zipIdx_map_fst] at hall

theorem zipIdx_mapM_map {ε α : Type} {f : Nat → α → Except ε α} {g : α → α} {as bs : List α}
    (h : (as.zipIdx.mapM fun (a, i) => f i a) = .ok bs) (hf : ∀ i a b, f i a = .ok b → b = g a) :
    bs = as.map g := by
  have hall := zipIdx_mapM_eq_ok (R := fun a b => g a = b) h fun i a b hb => (hf i a b hb).symm
  rw [← forall₂_map_left_iff (R := fun a b => a = b), forall₂_eq_eq_eq] at hall
  exact hall.symm

namespace Program

open Wire

section Unmoved

variable {numbering : Numbering} {n : Nat} (hfuncs : numbering.funcs = List.range n)

include hfuncs

theorem followExpr_unmoved (expr : Bytes) : followExpr numbering expr = .ok expr := by
  have hmoves : numbering.movesFuncs = false := by
    simp [Numbering.movesFuncs, hfuncs]
  simp [followExpr, hmoves]

theorem emitGlobals_unmoved {globals out : List Global}
    (h : (globals.zipIdx.mapM fun (g, i) => emitGlobal numbering i g) = .ok out) :
    out = globals := by
  refine (zipIdx_mapM_map (g := id) h fun i g found hfound => ?_).trans (map_id _)
  rw [emitGlobal, followExpr_unmoved hfuncs] at hfound
  exact (pure_eq_ok_iff.mp hfound).symm

theorem followElement_eq_ok {e found : Element} (h : followElement numbering e = .ok found) :
    found = { e with table := Numbering.follow numbering.tables e.table } := by
  obtain ⟨funcs, hfuncsRead, h⟩ := of_bind h
  obtain ⟨exprs, hexprs, h⟩ := of_bind h
  have hsame : funcs = e.funcs := by
    have hall : Forall₂ (fun a b => a = b) e.funcs funcs := by
      refine (mapM_eq_ok_iff.mp hfuncsRead).imp fun func index hindex => ?_
      split at hindex
      next hlt =>
        rw [hfuncs, length_range] at hlt
        rw [hfuncs, Numbering.indexIn_range hlt, UInt32.ofNat_toNat] at hindex
        exact Except.ok.inj hindex
      next => cases hindex
    rw [forall₂_eq_eq_eq] at hall
    exact hall.symm
  have hsameExprs : exprs = e.exprs := by
    have hall : Forall₂ (fun a b => a = b) e.exprs exprs := by
      refine (mapM_eq_ok_iff.mp hexprs).imp fun expr found hfound => ?_
      rw [followExpr_unmoved hfuncs] at hfound
      exact Except.ok.inj hfound
    rw [forall₂_eq_eq_eq] at hall
    exact hall.symm
  rw [← pure_eq_ok_iff.mp h, hsame, hsameExprs]

theorem emitElements_eq_ok {elements out : List Element}
    (h : (elements.zipIdx.mapM fun (e, i) => emitElement numbering i e) = .ok out) :
    out = elements.map fun e => { e with table := Numbering.follow numbering.tables e.table } :=
  zipIdx_mapM_map h fun _ _ _ hfound => followElement_eq_ok hfuncs (emitting_eq_ok_iff.mp hfound)

theorem emitElements_unmoved {k : Nat} (htables : numbering.tables = List.range k)
    {elements out : List Element}
    (h : (elements.zipIdx.mapM fun (e, i) => emitElement numbering i e) = .ok out) :
    out = elements := by
  rw [emitElements_eq_ok hfuncs h, htables]
  simp only [Numbering.follow_range]
  exact map_id _

theorem startIndex_unmoved {p : Program} {start found : Option UInt32}
    (hstart : p.start = start.map UInt32.toNat) (h : p.startIndex numbering = .ok found) :
    found = start := by
  unfold startIndex at h
  rw [hstart] at h
  cases start with
  | none => exact (pure_eq_ok_iff.mp h).symm
  | some start =>
    obtain ⟨index, hindex, h⟩ := map_eq_ok_iff.mp h
    unfold Numbering.func Numbering.index at hindex
    split at hindex
    next hlt =>
      rw [hfuncs, length_range] at hlt
      rw [hfuncs, Numbering.indexIn_range hlt, UInt32.ofNat_toNat] at hindex
      rw [← h, Except.ok.inj hindex]
    next => cases hindex

/-- An export is written with the index of what it exports. -/
theorem Exported.written {p q : Program} {e found : Wire.Export} {x : Export} (h : Exported p e x)
    (hn : n = q.funcs.length) (hle : p.funcs.length ≤ n)
    (htables : numbering.tables = List.range q.tables.length)
    (hlet : p.tables.length ≤ q.tables.length) {τ : TagId → TagId}
    (htags : ∀ i : UInt32, i.toNat < p.tags.length → ∃ j, numbering.tag i.toNat = .ok j ∧
      j.toNat = τ i.toNat ∧ j.toNat < q.tags.length)
    (hfound : exportToWire numbering x = .ok found) :
    Exported q found (x.retag τ) ∧ found.kind = e.kind := by
  cases h with
  | func hkind hlt =>
    have hindex : numbering.func e.index.toNat = .ok e.index := by
      rw [Numbering.func, hfuncs, Numbering.index_range_toNat (Nat.lt_of_lt_of_le hlt hle)]
    obtain ⟨index, hread, hfound⟩ := of_bind hfound
    cases hindex.symm.trans hread
    cases hfound
    exact ⟨.func rfl (hn ▸ Nat.lt_of_lt_of_le hlt hle), hkind.symm⟩
  | table hkind hlt =>
    have hindex : numbering.table e.index.toNat = .ok e.index := by
      rw [Numbering.table, htables, Numbering.index_range_toNat (Nat.lt_of_lt_of_le hlt hlet)]
    obtain ⟨index, hread, hfound⟩ := of_bind hfound
    cases hindex.symm.trans hread
    cases hfound
    exact ⟨.table rfl (Nat.lt_of_lt_of_le hlt hlet), hkind.symm⟩
  | tag hkind hlt =>
    obtain ⟨j, hindex, hj, hjlt⟩ := htags e.index hlt
    obtain ⟨index, hread, hfound⟩ := of_bind hfound
    cases hindex.symm.trans hread
    cases hfound
    refine ⟨?_, hkind.symm⟩
    simp only [Export.retag, ← hj]
    exact .tag rfl hjlt
  | other hfunc htable htag =>
    obtain ⟨index, hread, hfound⟩ := of_bind hfound
    cases hread
    cases hfound
    exact ⟨.other hfunc htable htag, rfl⟩

end Unmoved

variable {u v q : Program} {e : Wire.Import} {es : List Wire.Import}

/-- What reading imports has added so far stays. -/
structure Grown (u q : Program) : Prop where
  imports : u.imports <+: q.imports
  funcs : u.funcs <+: q.funcs
  tables : u.tables <+: q.tables
  tags : u.tags <+: q.tags

theorem Grown.trans (huv : Grown u v) (hvq : Grown v q) : Grown u q :=
  ⟨huv.imports.trans hvq.imports, huv.funcs.trans hvq.funcs, huv.tables.trans hvq.tables,
    huv.tags.trans hvq.tags⟩

theorem Takes.grown (h : Takes u e v) : Grown u v := by
  cases h with
  | func _ => exact ⟨⟨_, rfl⟩, ⟨_, rfl⟩, prefix_rfl, prefix_rfl⟩
  | table _ => exact ⟨⟨_, rfl⟩, prefix_rfl, ⟨_, rfl⟩, prefix_rfl⟩
  | tag => exact ⟨⟨_, rfl⟩, prefix_rfl, prefix_rfl, ⟨_, rfl⟩⟩
  | memory | global | other => exact ⟨⟨_, rfl⟩, prefix_rfl, prefix_rfl, prefix_rfl⟩

theorem Takes.adds (h : Takes u e v) : ∃ i, v.imports = u.imports ++ [i] := by
  cases h <;> exact ⟨_, rfl⟩

theorem Folds.takes_grown (h : Folds Takes u es q) : Grown u q := by
  refine h.induction (motive := Grown u) ?_ fun _ _ _ hu htakes => hu.trans htakes.grown
  exact ⟨prefix_rfl, prefix_rfl, prefix_rfl, prefix_rfl⟩

/-- A program still has what reading its imports gave. -/
structure Retains (q p : Program) : Prop where
  funcs : ∀ (id : Nat) f, q.funcs[id]? = some f → ∃ g, p.funcs[id]? = some g ∧ g.type = f.type
  tables : ∀ (id : Nat) t, q.tables[id]? = some t → p.tables[id]? = some t
  tags : ∀ (id : Nat) t, q.tags[id]? = some t → p.tags[id]? = some t

/-- An import is written so that reading it adds the same. -/
theorem Takes.written {p : Program} {found : Wire.Import} {i : Import} (h : Takes u e v)
    (he : e.desc.Proper) (hvq : Grown v q) (hqp : Retains q p) (hi : v.imports = u.imports ++ [i])
    (hfound : p.importToWire i = .ok found) (more : List Signature) :
    found.desc.Proper ∧
      Takes { u with types := u.types ++ more } found { v with types := v.types ++ more } := by
  cases h with
  | @func module name type hlt =>
    cases append_cancel_left hi
    obtain ⟨g, hg, htype⟩ := hqp.funcs u.funcs.length _ (getElem?_of_isPrefix hvq.funcs getElem?_concat_length)
    simp only [importToWire, hg, htype, UInt32.ofNat_toNat] at hfound
    cases hfound
    refine ⟨trivial, .func ?_⟩
    rw [length_append]
    exact Nat.lt_add_right _ hlt
  | @table module name t elem helem =>
    cases append_cancel_left hi
    have ht := hqp.tables u.tables.length _ (getElem?_of_isPrefix hvq.tables getElem?_concat_length)
    simp only [importToWire, ht] at hfound
    cases hfound
    exact ⟨tableToWire_proper he.limits he.init, .table (elemOf_tableToWire _)⟩
  | @tag module name t =>
    cases append_cancel_left hi
    have ht := hqp.tags u.tags.length _ (getElem?_of_isPrefix hvq.tags getElem?_concat_length)
    simp only [importToWire, ht, tagToWire, UInt32.ofNat_toNat] at hfound
    cases hfound
    exact ⟨trivial, .tag⟩
  | memory | global | other =>
    cases append_cancel_left hi
    cases hfound
    exact ⟨he, by constructor⟩

/-- So are all the imports. -/
theorem Folds.takes_written {p : Program} {found : List Wire.Import} {new : List Import}
    (h : Folds Takes u es q) (hes : ∀ e ∈ es, e.desc.Proper) (hqp : Retains q p)
    (hnew : q.imports = u.imports ++ new)
    (hfound : Forall₂ (fun i e => p.importToWire i = .ok e) new found) (more : List Signature) :
    (∀ e ∈ found, e.desc.Proper) ∧
      Folds Takes { u with types := u.types ++ more } found { q with types := q.types ++ more } := by
  induction h generalizing new found with
  | nil =>
    obtain rfl : new = [] := by simpa using hnew
    cases hfound
    exact ⟨nofun, .nil⟩
  | @cons u e v es q htakes hrest ih =>
    obtain ⟨i, hi⟩ := htakes.adds
    obtain ⟨rest, hrestImports⟩ := hrest.takes_grown.imports
    obtain rfl : new = i :: rest := by
      rw [hi, append_assoc, hnew] at hrestImports
      exact (append_cancel_left hrestImports).symm
    cases hfound with
    | cons hfirst hfound =>
      obtain ⟨hproper, hread⟩ := htakes.written (hes _ mem_cons_self) hrest.takes_grown hqp hi
        hfirst more
      obtain ⟨hproperRest, hreadRest⟩ := ih (fun e he => hes e (mem_cons_of_mem _ he)) hqp
        hrestImports.symm hfound
      exact ⟨forall_mem_cons.mpr ⟨hproper, hproperRest⟩, .cons hread hreadRest⟩

theorem filterMap_range' {α : Type} (as : List α) {start n : Nat} (h : start + n ≤ as.length) :
    (List.range' start n).filterMap (as[·]?) = (as.drop start).take n := by
  induction n generalizing start with
  | zero => simp
  | succ n ih =>
    have hlt : start < as.length := by omega
    rw [range'_succ, filterMap_cons, getElem?_eq_getElem hlt, ih (by omega),
      drop_eq_getElem_cons hlt, take_succ_cons]

end Program

end HostCatch
