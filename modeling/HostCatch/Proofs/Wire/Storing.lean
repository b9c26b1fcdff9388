import HostCatch.Proofs.Wire.Sections

namespace HostCatch

open List

namespace Reader

variable {α β : Type}

/-- The bytes `w` are read as nothing but `a`, if they can be read at all. -/
def Means (p : Reader α) (w : Bytes) (a : α) : Prop :=
  ∀ rest pos b c, p ⟨w ++ rest, pos⟩ = .ok b c → b = a ∧ c = ⟨rest, pos + w.length⟩

theorem Spells.means {p : Reader α} {w : Bytes} {a : α} (h : Spells p w a) : Means p w a := by
  intro rest pos b c hread
  cases (h rest pos).symm.trans hread
  exact ⟨rfl, rfl⟩

namespace Means

variable {p : Reader α} {f : α → Reader β} {write : α → Bytes}

theorem bind {v w : Bytes} {a : α} {b : β} (hp : Means p v a) (hf : Means (f a) w b) :
    Means (p >>= f) (v ++ w) b := by
  intro rest pos found c hread
  obtain ⟨a', d, ha, hread⟩ := of_bind hread
  rw [append_assoc] at ha
  obtain ⟨rfl, rfl⟩ := hp _ _ _ _ ha
  obtain ⟨rfl, rfl⟩ := hf _ _ _ _ hread
  rw [length_append, Nat.add_assoc]
  exact ⟨rfl, rfl⟩

theorem bind_nil {w : Bytes} {a : α} {b : β} (hp : Means p w a) (hf : Means (f a) [] b) :
    Means (p >>= f) w b := by
  have h := hp.bind hf
  rwa [append_nil] at h

theorem bind_pure {f : α → β} {w : Bytes} {a : α} (hp : Means p w a) :
    Means (p >>= fun a => pure (f a)) w (f a) :=
  hp.bind_nil (Spells.done (f a)).means

theorem times {as : List α} (h : ∀ a ∈ as, Means p (write a) a) :
    Means (times p as.length) (as.flatMap write) as := by
  induction as with
  | nil => exact (Spells.done []).means
  | cons a as ih =>
    rw [flatMap_cons]
    refine (h a mem_cons_self).bind (bind_pure (ih fun b hb => ?_))
    exact h b (mem_cons_of_mem a hb)

theorem list {as : List α} (h : ∀ a ∈ as, (write a).length < 2 ^ 32 → Means p (write a) a)
    (hne : ∀ a ∈ as, write a ≠ []) (hsize : (Wire.list write as).length < 2 ^ 32) :
    Means (list p) (Wire.list write as) as := by
  refine (u32_spells _).means.bind ?_
  rw [toNat_ofNat_size (length_lt_of_list hne hsize)]
  refine times fun a ha => h a ha ?_
  have hle := length_le_of_mem write ha
  simp only [Wire.list, length_append] at hsize
  omega

end Means

end Reader

namespace Wire

open Reader

variable {e : Element} {d : ImportDesc}

theorem limits_means (l : Limits) : Means Reader.limits (limits l) l.stored := by
  obtain ⟨hwide, hmax, hshared⟩ := limitFlags_eq l.max.isSome l.shared l.memory64
  refine (Spells.byte _).means.bind ?_
  simp only [hwide, hmax, hshared, Bool.decide_eq_true]
  refine (held_spells l l.min).means.bind ?_
  unfold Limits.stored
  cases l.max with
  | none =>
    simp only [Option.isSome_none, Bool.false_eq_true, ↓reduceIte, pure_bind]
    exact (Spells.done _).means
  | some most =>
    simp only [Option.isSome_some, ↓reduceIte]
    refine ((held_spells l most).map some).means.bind_nil ?_
    dsimp only
    split
    next =>
      intro rest pos b c hread
      obtain ⟨_, _, hthrow, -⟩ := Reader.of_bind hread
      exact absurd hthrow throw_ne_ok
    next => exact (Spells.done _).means

theorem limits_stored (l : Limits) : limits l.stored = limits l := by
  obtain ⟨min, max, shared, memory64⟩ := l
  cases memory64 <;> cases max <;>
    simp only [limits, Limits.stored, Limits.held, Bool.false_eq_true, ↓reduceIte, Option.map_none,
      Option.map_some, Option.isSome_none, Option.isSome_some, UInt32.toUInt32_toUInt64]

def TableType.stored (t : TableType) : TableType :=
  { t with limits := t.limits.stored }

theorem tableType_stored (t : TableType) : tableType t.stored = tableType t := by
  simp only [tableType, TableType.stored, limits_stored]

def ImportDesc.stored : ImportDesc → ImportDesc
  | table type => table (type.map TableType.stored)
  | desc => desc

def Import.stored (i : Import) : Import :=
  { i with desc := i.desc.stored }

theorem importEntry_stored (i : Import) : importEntry i.stored = importEntry i := by
  obtain ⟨module, name, desc⟩ := i
  cases desc with
  | table type =>
    cases type with
    | none => rfl
    | some t =>
      simp only [importEntry, importDesc, Import.stored, ImportDesc.stored, ImportDesc.kind,
        Option.map_some, Option.getD_some, tableType_stored]
  | _ => rfl

theorem element_stored (e : Element) : element e.stored = element e := by
  have hplaced : e.stored.hasTable = e.hasTable := rfl
  have htable : (if e.hasTable then Leb128.u32 e.stored.table else []) =
      if e.hasTable then Leb128.u32 e.table else [] := by
    unfold Element.stored
    split <;> rfl
  unfold element
  rw [hplaced, htable]
  rfl

theorem Element.stored_stored (e : Element) : e.stored.stored = e.stored := by
  have htable : (if e.hasTable then e.stored.table else 0) = e.stored.table := by
    unfold Element.stored
    cases e.hasTable <;> rfl
  change ({ e.stored with table := if e.hasTable then e.stored.table else 0 } : Element) = e.stored
  rw [htable]

theorem Element.Proper.move (h : e.Proper) (table : UInt32) :
    ({ e with table } : Element).stored.Proper :=
  ⟨Element.stored_stored _, h.spells⟩

theorem Element.Proper.exprs_spelled (h : e.Proper) :
    ∀ expr ∈ e.exprs, Spells constExpr expr expr :=
  (element_refills (h.self [] 0)).2.1

theorem Element.Proper.refill (h : e.Proper) (table : UInt32) {funcs : List UInt32}
    {exprs : List Bytes} (hfuncs : funcs.length = e.funcs.length)
    (hexprs : exprs.length = e.exprs.length) (hspelled : ∀ expr ∈ exprs, Spells constExpr expr expr) :
    ({ e with table, funcs, exprs } : Element).stored.Proper := by
  obtain ⟨-, -, hread⟩ := element_refills (h.self [] 0)
  exact ⟨Element.stored_stored _, fun other => hread other funcs exprs hfuncs hexprs hspelled⟩

/-- A table type that can be told by its bytes, but for its limits. -/
structure TableType.Sketched (t : TableType) : Prop where
  coded : RefCoded t.elem t.ref
  unmarked : t.init = [] → t.elem ≠ 0x40
  init : t.init ≠ [] → Spells constExpr t.init t.init

theorem TableType.Proper.sketched {t : TableType} (h : t.Proper) : t.Sketched :=
  ⟨h.coded, h.unmarked, h.init⟩

theorem tableType_means {t : TableType} (h : t.Sketched) :
    Means Reader.tableType (tableType t) t.stored := by
  obtain ⟨⟨w, hw, href⟩, hunmarked, hinit⟩ := h
  unfold tableType Reader.tableType
  rw [hw]
  split
  next hnone =>
    obtain ⟨elem, ref, limits, init⟩ := t
    obtain rfl : init = [] := hnone
    refine Means.bind (v := [elem]) (w := w ++ _) (Spells.byte elem).means ?_
    rw [if_neg (hunmarked rfl)]
    exact href.means.bind (limits_means limits).bind_pure
  next hsome =>
    simp only [append_assoc]
    refine Means.bind (v := [0x40]) (Spells.byte 0x40).means ?_
    rw [if_pos rfl]
    refine Means.bind (v := [0x00]) (Spells.byte 0x00).means ?_
    rw [if_neg (by decide)]
    refine Means.bind (v := [t.elem]) (Spells.byte t.elem).means ?_
    exact href.means.bind ((limits_means t.limits).bind (hinit hsome).means.bind_pure)

def ImportDesc.Sketched : ImportDesc → Prop
  | table (some t) => t.Sketched
  | desc => desc.Proper

theorem ImportDesc.Sketched.cases (h : d.Sketched) :
    (∃ t : TableType, d = table (some t) ∧ t.Sketched) ∨ d.stored = d ∧ d.Proper := by
  cases d with
  | table t =>
    cases t with
    | none => exact h.elim
    | some t => exact .inl ⟨t, rfl, h⟩
  | _ => exact .inr ⟨rfl, h⟩

theorem ImportDesc.Proper.sketched (h : d.Proper) : d.Sketched := by
  cases d with
  | table t =>
    cases t with
    | none => exact h
    | some t => exact TableType.Proper.sketched h
  | _ => exact h

theorem importDesc_means (h : d.Sketched) :
    ∃ w, importDesc d = d.kind :: w ∧ Means (Reader.importDesc d.kind) w d.stored := by
  obtain ⟨t, rfl, ht⟩ | ⟨hsame, hproper⟩ := h.cases
  · exact ⟨tableType t, rfl, (tableType_means ht).bind_pure⟩
  · obtain ⟨w, hw, hread⟩ := importDesc_spells hproper
    exact ⟨w, hw, hsame.symm ▸ hread.means⟩

theorem importEntry_means {i : Import} (h : i.desc.Sketched)
    (hlength : (importEntry i).length < 2 ^ 32) :
    Means Reader.importEntry (importEntry i) i.stored := by
  obtain ⟨w, hw, hdesc⟩ := importDesc_means h
  unfold importEntry at hlength ⊢
  simp only [hw, append_assoc, length_append] at hlength ⊢
  refine (name_spelled i.module (by omega)).means.bind
    ((name_spelled i.name (by omega)).means.bind ?_)
  exact Means.bind (v := [i.desc.kind]) (Spells.byte i.desc.kind).means hdesc.bind_pure

/-- The module that the bytes of a module stand for. -/
def Module.stored (m : Module) : Module :=
  { m with
    imports := m.imports.map Import.stored
    tables := m.tables.map TableType.stored
    elements := m.elements.map Element.stored }

/-- A module that can be read again from its bytes as long as the limits of its tables are in order.
-/
structure Module.Sketched (m : Module) : Prop where
  imports : ∀ i ∈ m.imports, i.desc.Sketched
  tables : ∀ t ∈ m.tables, t.Sketched
  memories : ∀ l ∈ m.memories, l.Proper
  globals : ∀ g ∈ m.globals, g.Proper
  exports : ∀ e ∈ m.exports, ¬ EntityCode.tag < e.kind
  elements : ∀ e ∈ m.elements, e.stored.Proper
  data : ∀ d ∈ m.data, Spells Reader.dataSegment (dataSegment d) d
  typeDefs : m.typeDefs = m.types.map fun t => .func (some t)
  types : ∀ t ∈ m.types, t.Coded
  code : ∀ b ∈ m.code, ∀ l ∈ b.locals, l.Coded

theorem entries_map {α : Type} {write : α → Bytes} {f : α → α} (s : SectionId)
    (h : ∀ a, write (f a) = write a) (as : List α) :
    entries s write (as.map f) = entries s write as := by
  cases as with
  | nil => rfl
  | cons a as => simp [entries, Wire.list, flatMap_map, h]

theorem Module.behindTypes_stored (m : Module) : m.stored.behindTypes = m.behindTypes := by
  simp only [Module.behindTypes, Module.stored, entries_map _ importEntry_stored,
    entries_map _ tableType_stored, entries_map _ element_stored]

theorem Module.encode_stored {m : Module} {w : Bytes} (h : m.encode = .ok w) :
    m.stored.encode = .ok w := by
  obtain ⟨types, htypes, rfl⟩ := Module.encode_eq_ok_iff.mp h
  exact Module.encode_eq_ok_iff.mpr ⟨types, htypes, by rw [Module.behindTypes_stored]⟩

end Wire

namespace Reader

open Wire

variable {α : Type} {m m' n : Module} {r r' : Nat} {v w : Bytes}

/-- Behind sections up to the place `r` the bytes `w` are read to the end of the module `n`. -/
def Completes (m : Module) (r : Nat) (w : Bytes) (n : Module) : Prop :=
  ∃ last bound pos c, last ≤ r ∧ w.length ≤ bound ∧ sections bound last m ⟨w, pos⟩ = .ok n c

theorem completes_of_module
    (h : module.run (Wire.u32le magic ++ (Wire.u32le version ++ w)) = .ok n) :
    Completes {} 0 w n := by
  obtain ⟨c, h⟩ := run_eq_ok h
  rw [module_header] at h
  exact ⟨0, _, _, c, Nat.le_refl 0, Nat.le_refl _, h⟩

theorem Extends.completes (h : Extends m r v m' r') (hn : Completes m r (v ++ w) n) :
    Completes m' r' w n := by
  obtain ⟨last, bound, pos, c, hlast, hbound, hread⟩ := hn
  rw [length_append] at hbound
  obtain ⟨last', bound', hlast', hbound', hsame⟩ := h last w pos bound hlast hbound
  exact ⟨last', bound', _, c, hlast', hbound', hsame ▸ hread⟩

/-- The entries of a section can be read if the module can. -/
theorem Completes.entries {p : Reader α} {write : α → Bytes} {as : List α} {s : SectionId}
    {P : α → Prop} (hn : Completes m r (entries s write as ++ w) n) (put : Module → List α → Module)
    (h : ∀ a ∈ as, (write a).length < 2 ^ 32 → Means p (write a) a) (hne : ∀ a ∈ as, write a ≠ [])
    (hsize : (Wire.list write as).length < 2 ^ 32)
    (hs : payload m s = list p >>= fun as => pure (put m as)) (hr : r < s.rank)
    (hp : Yields p P) : ∀ a ∈ as, P a := by
  cases as with
  | nil => exact fun a ha => absurd ha not_mem_nil
  | cons a as =>
    obtain ⟨last, bound, pos, c, hlast, hbound, hn⟩ := hn
    simp only [Wire.entries, framed, length_append, length_cons] at hbound
    obtain ⟨bound, rfl⟩ : ∃ k, bound = k + 1 := ⟨bound - 1, by omega⟩
    rw [Wire.entries, sections_framed hsize (.inr (Nat.lt_of_le_of_lt hlast hr))] at hn
    · obtain ⟨_, _, hinside, -⟩ := of_bind hn
      obtain ⟨_, hread⟩ := inside_within_eq_ok hinside
      rw [hs] at hread
      obtain ⟨found, d, hfound, -⟩ := of_bind hread
      obtain ⟨rfl, -⟩ := Means.list h hne hsize [] 0 found d (by rw [append_nil]; exact hfound)
      exact (list_yields hp hfound).2
    · exact cons_ne_nil a as

end Reader

namespace Wire

open Reader

/-- If the bytes of a module can be read, then as the module in short form. -/
theorem Module.decode_stored {m n : Module} (h : m.Sketched) {w : Bytes} (hw : m.encode = .ok w)
    (hlength : w.length < 2 ^ 32) (hn : Module.decode w = .ok n) : n = m.stored.reread := by
  have hstored := Module.encode_stored hw
  obtain rfl := Module.encode_eq_ok (m := m.stored) h.typeDefs hstored
  have hread := completes_of_module hn
  have hbytes : (typeBytes m.types).length < 2 ^ 32 ∧ m.stored.behindTypes.length < 2 ^ 32 := by
    simp only [length_append] at hlength
    exact ⟨Nat.lt_of_le_of_lt (by simp only [Module.stored]; omega) hlength, by omega⟩
  have hfits := Module.fits_of_length hbytes.2
  replace hread := (typeBytes_extends h.types hbytes.1).completes hread
  unfold Module.behindTypes at hread
  have himports : ∀ i ∈ m.stored.imports, i.desc.Proper := by
    refine hread.entries (fun m imports => { m with imports }) (forall_mem_map.mpr ?_)
      (fun i _ => importEntry_ne_nil i) hfits.imports rfl (by decide) importEntry_eq_ok
    intro i hi hsize
    rw [importEntry_stored] at hsize ⊢
    exact importEntry_means (h.imports i hi) hsize
  replace hread := (entries_extends (fun m imports => { m with imports })
    (list_spelled (fun i hi => importEntry_spelled (himports i hi)) nofun)
    hfits.imports rfl rfl (by decide) (by decide)).completes hread
  replace hread := (entries_extends (fun m funcs => { m with funcs })
    (list_spelled (fun i _ _ => u32_spells i) nofun)
    hfits.funcs rfl rfl (by decide) (by decide)).completes hread
  have htables : ∀ t ∈ m.stored.tables, t.Proper := by
    refine hread.entries (fun m tables => { m with tables }) (forall_mem_map.mpr ?_)
      (fun t _ => tableType_ne_nil t) hfits.tables rfl (by decide) tableType_eq_ok
    intro t ht _
    rw [tableType_stored]
    exact tableType_means (h.tables t ht)
  have hcoded : m.stored.Coded :=
    ⟨⟨himports, htables, h.memories, h.globals, h.exports, forall_mem_map.mpr h.elements, h.data⟩,
      h.typeDefs, h.types, h.code⟩
  exact Except.ok.inj (hn.symm.trans (Module.decode_encode hcoded hstored hlength))

end Wire

end HostCatch
