import HostCatch.Proofs.Program.Following
import HostCatch.Proofs.Wire.Storing
import Mathlib.Logic.Relation

namespace HostCatch

open List

namespace Program

open Wire HostCatch.Numbering

/-- Adds a table, either imported or defined. -/
inductive AddsTable (p : Program) : Program → Prop
  | imported (module name : String) (elem : RefType) (min : UInt64) (max : Option UInt64) :
      AddsTable p (p.importTable module name elem min max).2
  | defined (elem : RefType) (min : UInt64) (max : Option UInt64) :
      AddsTable p (p.addTable elem min max).2

/-- The programs that additions of tables lead to. -/
abbrev GainsTables : Program → Program → Prop :=
  Relation.ReflTransGen AddsTable

/-- What a program carries can be told by its bytes, but for the limits of tables. -/
structure Storable (p : Program) : Prop where
  inits : ∀ t ∈ p.tables, t.init ≠ [] → Reader.Spells Reader.constExpr t.init t.init
  others : ∀ i ∈ p.imports, ∀ desc, i.target = .carried desc → desc.Proper

section Grow

variable {p q r : Program}

theorem AddsTable.adds (h : p.AddsTable q) : ∃ new, p.Adds new q := by
  cases h with
  | imported module name elem min max => exact ⟨_, .importTable module name elem min max rfl⟩
  | defined elem min max => exact ⟨_, .addTable elem min max rfl⟩

theorem GainsTables.reaches (h : GainsTables p r) : ∃ issued, Reaches p issued r := by
  induction h with
  | refl => exact ⟨[], .start⟩
  | tail _ hadd ih =>
    obtain ⟨issued, hreaches⟩ := ih
    obtain ⟨new, hadds⟩ := hadd.adds
    exact ⟨issued ++ new, hreaches.add hadds⟩

theorem GainsTables.rest (h : GainsTables p r) :
    r = { p with imports := r.imports, tables := r.tables } := by
  induction h with
  | refl => rfl
  | tail _ hadd ih =>
    cases hadd with
    | imported | defined =>
      rw [ih]
      rfl

theorem GainsTables.order_funcs (h : GainsTables p r) : r.numbering.funcs = p.numbering.funcs := by
  induction h with
  | refl => rfl
  | tail _ hadd ih =>
    rw [← ih, numbering_funcs, numbering_funcs]
    cases hadd with
    | imported module name elem min max =>
      simp only [importTable, filterMap_append]
      exact congrArg (· ++ _) (append_nil _)
    | defined => rfl

theorem Storable.append (h : p.Storable) {tables : List Table} {imports : List Import}
    (htables : q.tables = p.tables ++ tables) (himports : q.imports = p.imports ++ imports)
    (hinits : ∀ t ∈ tables, t.init ≠ [] → Reader.Spells Reader.constExpr t.init t.init)
    (hothers : ∀ i ∈ imports, ∀ desc, i.target = .carried desc → desc.Proper) : q.Storable := by
  constructor
  · rw [htables]
    exact forall_mem_append.mpr ⟨h.inits, hinits⟩
  · rw [himports]
    exact forall_mem_append.mpr ⟨h.others, hothers⟩

theorem Adds.storable {new : List Binding} (h : p.Adds new q) (hp : p.Storable) : q.Storable := by
  constructor
  · intro t ht hinit
    rcases h.mem_tables ht with ht | hnil
    · exact hp.inits t ht hinit
    · exact absurd hnil hinit
  · intro i hi desc hdesc
    rcases h.mem_imports hi with hi | hnot
    · exact hp.others i hi desc hdesc
    · exact absurd hdesc (hnot desc)

theorem Reaches.storable {issued : List Binding} (h : Reaches p issued r) (hp : p.Storable) :
    r.Storable := by
  induction h with
  | start => exact hp
  | add _ hadds ih => exact hadds.storable ih

end Grow

theorem Takes.storable {u v : Program} {e : Wire.Import} (h : Takes u e v) (he : e.desc.Proper)
    (hu : u.Storable) : v.Storable := by
  have hnone : ∀ t ∈ ([] : List Table), t.init ≠ [] →
      Reader.Spells Reader.constExpr t.init t.init := fun t ht => absurd ht not_mem_nil
  cases h with
  | func _ | tag =>
    exact hu.append (append_nil _).symm rfl hnone (forall_mem_singleton.mpr nofun)
  | table _ =>
    exact hu.append rfl rfl (forall_mem_singleton.mpr he.init) (forall_mem_singleton.mpr nofun)
  | memory | global | other =>
    refine hu.append (append_nil _).symm rfl hnone (forall_mem_singleton.mpr ?_)
    rintro _ ⟨⟩
    exact he

theorem Folds.takes_storable {u q : Program} {es : List Wire.Import} (h : Folds Takes u es q)
    (hes : ∀ e ∈ es, e.desc.Proper) (hu : u.Storable) : q.Storable := by
  induction h with
  | nil => exact hu
  | cons htakes _ ih =>
    obtain ⟨he, hes⟩ := forall_mem_cons.mp hes
    exact ih hes (htakes.storable he hu)

section Read

variable {m out : Wire.Module} {p q s r : Program} {tables : List Table} {exports : List Export}
  {bodies : List (UInt32 × Wire.FuncBody)} {extra : List ValType} {names : List Wire.Custom}

theorem ReadFrom.storable (hread : ReadFrom m p q s tables exports) (hm : m.Proper) :
    p.Storable := by
  obtain ⟨types, -, himports⟩ := hread.assembles.imports
  have hq : q.Storable := himports.takes_storable hm.imports ⟨nofun, nofun⟩
  have htables : p.tables = q.tables ++ tables := by
    rw [hread.parts]
    rfl
  have hsame : p.imports = q.imports ++ [] := by
    rw [hread.parts]
    exact (append_nil _).symm
  refine hq.append htables hsame (fun t ht => ?_) fun i hi => absurd hi not_mem_nil
  obtain ⟨source, hsource, elem, -, rfl⟩ := forall₂_mem_right hread.assembles.tabled ht
  exact (hm.tables source hsource).init

theorem tableToWire_sketched {t : Table}
    (h : t.init ≠ [] → Reader.Spells Reader.constExpr t.init t.init) : (tableToWire t).Sketched :=
  ⟨t.elem.refCoded, fun _ => t.elem.code_ne, h⟩

theorem importToWire_sketched {i : Import} {e : Wire.Import} (he : r.importToWire i = .ok e)
    (hinit : ∀ id t, i.target = .table id → r.tables[id]? = some t → t.init ≠ [] →
      Reader.Spells Reader.constExpr t.init t.init)
    (hother : ∀ desc, i.target = .carried desc → desc.Proper) : e.desc.Sketched := by
  obtain ⟨desc, rfl, hdesc⟩ := importToWire_eq_ok he
  obtain ⟨module, name, target⟩ := i
  cases target with
  | func id =>
    obtain ⟨f, -, rfl⟩ := hdesc
    trivial
  | table id =>
    obtain ⟨t, ht, rfl⟩ := hdesc
    exact tableToWire_sketched (hinit id t rfl ht)
  | tag id =>
    obtain ⟨t, -, rfl⟩ := hdesc
    trivial
  | carried found =>
    obtain rfl : desc = found := hdesc
    exact (hother desc rfl).sketched

theorem Storable.importToWire_sketched (h : r.Storable) {i : Import} (hi : i ∈ r.imports)
    {e : Wire.Import} (he : r.importToWire i = .ok e) : e.desc.Sketched :=
  Program.importToWire_sketched he (fun _ t _ ht => h.inits t (mem_of_getElem? ht)) (h.others i hi)

theorem ReadFrom.elements_followed (hread : ReadFrom m p q s tables exports) (h : GainsTables p r)
    (he : r.Emits out bodies extra names) : out.elements =
      m.elements.map fun e => { e with table := Numbering.follow r.numbering.tables e.table } := by
  have hfuncs : r.numbering.funcs = List.range (p.count .func) :=
    h.order_funcs.trans (hread.ordered.order_range .func)
  rw [emitElements_eq_ok hfuncs he.elements, h.rest, hread.parts]
  rfl

/-- What is written for a program that has gained tables can be read again, as long as the limits of
its tables are in order. -/
theorem ReadFrom.sketched (hread : ReadFrom m p q s tables exports) (hm : m.Proper)
    (h : GainsTables p r) (hl : r.numbering.Indexes) (he : r.Emits out bodies extra names) :
    out.Sketched := by
  obtain ⟨issued, hreaches⟩ := h.reaches
  have hstorable := hreaches.storable (hread.storable hm)
  have hfuncs : r.numbering.funcs = List.range (p.count .func) :=
    h.order_funcs.trans (hread.ordered.order_range .func)
  constructor
  · intro e hmem
    obtain ⟨i, hi, hwritten⟩ := forall₂_mem_right (mapM_eq_ok_iff.mp he.imports) hmem
    exact hstorable.importToWire_sketched hi hwritten
  · rw [he.tables]
    refine forall_mem_map.mpr fun t ht => tableToWire_sketched (hstorable.inits t ?_)
    obtain ⟨id, -, hid⟩ := mem_filterMap.mp ht
    exact mem_of_getElem? hid
  · rw [he.memories, h.rest, hread.parts]
    exact hm.memories
  · rw [emitGlobals_unmoved hfuncs he.globals, h.rest, hread.parts]
    exact hm.globals
  · intro f hf
    obtain ⟨x, hx, hwritten⟩ := forall₂_mem_right (mapM_eq_ok_iff.mp he.exports) hf
    have hexports : r.exports = exports := by
      rw [h.rest]
      exact hread.exports_eq
    rw [hexports] at hx
    obtain ⟨e, hmem, hexported⟩ := forall₂_mem_right hread.assembles.exported hx
    rw [(exportToWire_denotes hl hexported hwritten).2.1]
    exact hm.exports e hmem
  · rw [hread.elements_followed h he]
    exact forall_mem_map.mpr fun e hmem => (hm.elements e hmem).move _
  · rw [he.data, h.rest, hread.parts]
    exact hm.data
  · exact he.typeDefs
  · exact he.types_coded
  · exact he.code_coded

end Read

end Program

namespace Wire

theorem Import.table?_stored (i : Wire.Import) :
    i.stored.table? = i.table?.map fun e => (e.1.stored, e.2) := by
  obtain ⟨module, name, desc⟩ := i
  cases desc with
  | table type => cases type <;> rfl
  | _ => rfl

theorem Module.tableSpace_stored (m : Module) :
    m.stored.tableSpace = m.tableSpace.map fun e => (e.1.stored, e.2) := by
  simp only [Module.tableSpace, Module.stored, map_append, filterMap_map, map_map,
    map_filterMap, Function.comp_def, Import.table?_stored]

/-- The segment that is read again after tables have got new indices. -/
def Element.moved (l : Numbering) (e : Element) : Element :=
  ({ e with table := Numbering.follow l.tables e.table } : Element).stored

theorem Element.moved_isActive (l : Numbering) (e : Element) :
    (e.moved l).isActive = e.isActive := rfl

theorem Element.moved_table (l : Numbering) (e : Element) :
    (e.moved l).table = if e.hasTable then Numbering.follow l.tables e.table else 0 := rfl

/-- The tables that instructions on whole tables name. -/
def FuncBody.fixedTables (b : FuncBody) : List UInt32 :=
  match decodeInstrs b.code with
  | .ok is => ((references .table is).filter (isBulk .table)).map Reference.target
  | .error _ => []

/-- The tables that a module names by indices which stay as they are written: in instructions on whole
tables, and by segments whose flags leave the table out. -/
def Module.fixedTables (m : Module) : List UInt32 :=
  m.code.flatMap FuncBody.fixedTables ++
    (m.elements.filter fun e => e.isActive && !e.hasTable).map Element.table

theorem FuncBody.forall_fixedTables {b : FuncBody} {is : List Instr} {P : UInt32 → Prop}
    (h : decodeInstrs b.code = .ok is) : (∀ i ∈ b.fixedTables, P i) ↔
      ∀ x ∈ references .table is, isBulk .table x = true → P x.target := by
  simp only [fixedTables, h, forall_mem_map, mem_filter, and_imp]

theorem Module.forall_fixedTables {m : Module} {P : UInt32 → Prop} :
    (∀ i ∈ m.fixedTables, P i) ↔ (∀ b ∈ m.code, ∀ i ∈ b.fixedTables, P i) ∧
      ∀ e ∈ m.elements, e.isActive = true → e.hasTable = false → P e.table := by
  simp only [fixedTables, forall_mem_append, forall_mem_flatMap, forall_mem_map,
    mem_filter, Bool.and_eq_true, Bool.not_eq_true', and_imp]

end Wire

namespace Program

open Wire HostCatch.Numbering

/-- The table of `p` that the index `i` stood for has the index `j` in what `r` is written as. -/
def KeepsTable (p r : Program) (i j : UInt32) : Prop :=
  i.toNat < p.tables.length → Denotes r.numbering.tables j i.toNat

/-- A table type as it is read again. -/
def StoresTable (t : Table) (type : TableType) : Prop :=
  elemOf type = .ok t.elem ∧ type.limits = t.limits.stored ∧ type.init = t.init

/-- Tables are referred to by the same identifiers in `n`, which was read from what `r` is written as,
and in `m`, which was read as `p`. -/
structure KeepsTables (m : Wire.Module) (p r : Program) (n : Wire.Module) : Prop where
  /-- In what was read, identifiers are indices. -/
  ids : p.numbering.tables = List.range p.tables.length
  /-- In what is read again, tables have the indices that the order gives them. -/
  tables : r.Finds r.numbering.tables r.tables Table.entry StoresTable (fun _ _ _ => True) n.tableSpace
  code : ∀ (i : Nat) code, m.code[i]? = some code → ∃ body is js, n.code[i]? = some body ∧
    decodeInstrs code.code = .ok is ∧ decodeInstrs body.code = .ok js ∧
      List.Forall₂ (fun x y => y.op = x.op ∧ p.KeepsTable r x.target y.target)
        (references .table is) (references .table js)
  elements : List.Forall₂ (fun e f => f.isActive = e.isActive ∧
    (e.isActive = true → p.KeepsTable r e.table f.table)) m.elements n.elements
  exports : ∀ (i : Nat) e, m.exports[i]? = some e → ∃ f, n.exports[i]? = some f ∧
    f.name = e.name ∧ f.kind = e.kind ∧
      (e.kind = EntityCode.table → Denotes r.numbering.tables f.index e.index.toNat)

section Kept

variable {m out n : Wire.Module} {p q s r : Program} {tables : List Table} {exports : List Export}
  {bodies : List (UInt32 × Wire.FuncBody)} {extra : List ValType} {names : List Wire.Custom}

theorem keepsTable_indexIn (hkeeps : p.Keeps r) (hpaired : r.Paired) (hn : r.tables.length ≤ 2 ^ 32)
    (i : UInt32) : p.KeepsTable r i (indexIn r.numbering.tables i.toNat) := fun hi =>
  denotes_indexIn (hpaired.order_perm .table) hn (Nat.lt_of_lt_of_le hi (hkeeps.count_le .table))

theorem keepsTable_follow (hkeeps : p.Keeps r) (hpaired : r.Paired) (hn : r.tables.length ≤ 2 ^ 32)
    (i : UInt32) : p.KeepsTable r i (Numbering.follow r.numbering.tables i) := by
  intro hi
  have hlength : r.numbering.tables.length = r.tables.length :=
    (hpaired.order_perm .table).length_eq.trans length_range
  have hlt : i.toNat < r.numbering.tables.length :=
    hlength ▸ Nat.lt_of_lt_of_le hi (hkeeps.count_le .table)
  rw [Numbering.follow, if_pos hlt]
  exact keepsTable_indexIn hkeeps hpaired hn i hi

/-- Code keeps its tables exactly if its fixed references do. -/
theorem ReadFrom.code_kept_iff (hread : ReadFrom m p q s tables exports) (hkeeps : p.Keeps r)
    (hpaired : r.Paired) (hn : r.tables.length ≤ 2 ^ 32) (he : r.Emits out bodies extra names)
    {i : Nat} {code : Wire.FuncBody} (hcode : m.code[i]? = some code) :
    (∃ body is js, out.code[i]? = some body ∧ decodeInstrs code.code = .ok is ∧
      decodeInstrs body.code = .ok js ∧
        Forall₂ (fun x y => y.op = x.op ∧ p.KeepsTable r x.target y.target)
          (references .table is) (references .table js)) ↔
      ∀ i ∈ code.fixedTables, p.KeepsTable r i i := by
  obtain ⟨body, is, js, hbody, his, hjs, hall⟩ := hread.code_written hkeeps hpaired he hcode
  have hplace : ∀ x, ((place r.numbering .table x).op = x.op ∧
      p.KeepsTable r x.target (place r.numbering .table x).target) ↔
        (isBulk .table x = true → p.KeepsTable r x.target x.target) := by
    intro x
    unfold place
    cases isBulk .table x with
    | true => simp
    | false => simp [order, keepsTable_indexIn hkeeps hpaired hn]
  have hrefs : Forall₂ (fun x y => y.op = x.op ∧ p.KeepsTable r x.target y.target)
      (references .table is) (references .table js) ↔
      ∀ i ∈ code.fixedTables, p.KeepsTable r i i := by
    rw [(hall .table).1, forall₂_map_right_iff, forall₂_same, FuncBody.forall_fixedTables his]
    exact forall₂_congr fun x _ => hplace x
  constructor
  · rintro ⟨body', is', js', hbody', his', hjs', hkept⟩
    cases hbody.symm.trans hbody'
    cases his.symm.trans his'
    cases hjs.symm.trans hjs'
    exact hrefs.mp hkept
  · exact fun hkept => ⟨body, is, js, hbody, his, hjs, hrefs.mpr hkept⟩

theorem elements_kept_iff (hkeeps : p.Keeps r) (hpaired : r.Paired) (hn : r.tables.length ≤ 2 ^ 32)
    (hm : ∀ e ∈ m.elements, e.Proper) :
    Forall₂ (fun e f => f.isActive = e.isActive ∧
      (e.isActive = true → p.KeepsTable r e.table f.table)) m.elements
      (m.elements.map (Element.moved r.numbering)) ↔
      ∀ e ∈ m.elements, e.isActive = true → e.hasTable = false → p.KeepsTable r e.table e.table := by
  rw [forall₂_map_right_iff, forall₂_same]
  refine forall₂_congr fun e hmem => ?_
  have hself : (if e.hasTable then e.table else 0) = e.table :=
    congrArg Element.table (hm e hmem).stored
  rw [Element.moved_table, and_iff_right (e.moved_isActive r.numbering)]
  cases hplaced : e.hasTable with
  | true => simp [keepsTable_follow hkeeps hpaired hn]
  | false =>
    rw [hplaced] at hself
    simp [← hself]

/-- What is read again is what was written, in short form. -/
theorem ReadFrom.reread_stored (hread : ReadFrom m p q s tables exports) (hm : m.Proper)
    (h : GainsTables p r) (he : r.Emits out bodies extra names) {bytes : Bytes}
    (hbytes : out.encode = .ok bytes) (hlength : bytes.length < 2 ^ 32)
    (hn : Module.decode bytes = .ok n) :
    (∀ space, r.count space ≤ 2 ^ 32) ∧ n = out.stored.reread := by
  obtain ⟨issued, hreaches⟩ := h.reaches
  have hpaired := hreaches.paired hread.paired
  have hlowered := he.loweredTo hpaired (hreaches.carriesOthers hread.carriesOthers)
  have hcount : ∀ space, r.count space ≤ 2 ^ 32 := fun space =>
    Nat.le_trans (hlowered.count_le (Module.within_encode he.typeDefs hbytes) space)
      (Nat.le_of_lt hlength)
  have hl : r.numbering.Indexes := fun space => ⟨_, hcount space, hpaired.order_perm space⟩
  exact ⟨hcount, Module.decode_stored (hread.sketched hm h hl he) hbytes hlength hn⟩

theorem Finds.stored {order : List Nat} (h : r.Finds order r.tables Table.entry DescribesTable
      (fun _ _ _ => True) out.tableSpace) :
    r.Finds order r.tables Table.entry StoresTable (fun _ _ _ => True) out.stored.tableSpace := by
  rw [Module.tableSpace_stored]
  refine ⟨length_map _ |>.trans h.1, fun id t ht => ?_⟩
  obtain ⟨type, origin, hget, ⟨helem, hlimits, hinit⟩, hcomes⟩ := h.2 id t ht
  refine ⟨type.stored, origin, ?_, ⟨helem, ?_, hinit⟩, hcomes⟩
  · rw [getElem?_map, hget]
    rfl
  · rw [← hlimits]
    rfl

/-- Whatever tables are added, all references are kept if those are that stay as they are written. -/
theorem ReadFrom.keepsTables_iff (hread : ReadFrom m p q s tables exports) (hm : m.Proper)
    (h : GainsTables p r) (hout : r.toModule = .ok out) {bytes : Bytes}
    (hbytes : out.encode = .ok bytes) (hlength : bytes.length < 2 ^ 32)
    (hn : Module.decode bytes = .ok n) :
    KeepsTables m p r n ↔ ∀ i ∈ m.fixedTables, p.KeepsTable r i i := by
  obtain ⟨bodies, extra, names, he⟩ := toModule_eq_ok_iff.mp hout
  obtain ⟨hcount, rfl⟩ := hread.reread_stored hm h he hbytes hlength hn
  obtain ⟨issued, hreaches⟩ := h.reaches
  have hkeeps := hreaches.keeps
  have hpaired := hreaches.paired hread.paired
  have hl : r.numbering.Indexes := fun space => ⟨_, hcount space, hpaired.order_perm space⟩
  have hcode := fun k code (hk : m.code[k]? = some code) =>
    hread.code_kept_iff hkeeps hpaired (hcount .table) he hk
  have helements : out.stored.reread.elements = m.elements.map (Element.moved r.numbering) := by
    simp only [Module.reread, Module.stored, hread.elements_followed h he, map_map]
    rfl
  have hsegments := elements_kept_iff hkeeps hpaired (hcount .table) hm.elements
  rw [Module.forall_fixedTables]
  constructor
  · intro hkept
    refine ⟨fun code hmem => ?_, hsegments.mp (helements ▸ hkept.elements)⟩
    obtain ⟨k, hk⟩ := getElem?_of_mem hmem
    exact (hcode k code hk).mp (hkept.code k code hk)
  · rintro ⟨hbulk, himplicit⟩
    constructor
    · exact hread.ordered.order_range .table
    · exact Finds.stored (he.loweredTo hpaired (hreaches.carriesOthers hread.carriesOthers)).tables
    · exact fun k code hk => (hcode k code hk).mpr (hbulk code (mem_of_getElem? hk))
    · rw [helements]
      exact hsegments.mpr himplicit
    · intro k e hk
      obtain ⟨f, hf, hname, hkind, hdenotes⟩ := hread.export_written hkeeps hl he hk
      exact ⟨f, hf, hname, hkind, hdenotes .table⟩

/-- Indices that stay as they are written serve exactly if they are those of imports, or no import is
added. -/
theorem forall_keepsTable_iff (hp : p.Ordered) (hkeeps : p.Keeps r) (hpaired : r.Paired)
    (is : List UInt32) : (∀ i ∈ is, p.KeepsTable r i i) ↔
      (r.importedCount .table = p.importedCount .table ∨
        ∀ i ∈ is, i.toNat < p.tables.length → i.toNat < p.importedCount .table) := by
  have hself : ∀ i, p.KeepsTable r i i ↔ (i.toNat < p.tables.length →
      r.importedCount .table = p.importedCount .table ∨ i.toNat < p.importedCount .table) :=
    fun i => forall_congr' fun hi => hkeeps.denotes_self_iff hp hpaired .table hi
  simp only [hself]
  by_cases hsame : r.importedCount .table = p.importedCount .table <;> simp [hsame]

end Kept

/-- Tables are added to a module that was read, and it is written and read again. All that referred to
a table still refers to it exactly if no import was added, or what stays as it is written referred
only to imports: the instructions on whole tables, and the segments that leave their table out. -/
theorem tables_kept_iff {data bytes : Bytes} {m out n : Wire.Module} {p r : Program}
    (hm : Module.decode data = .ok m) (hp : parse data = .ok p) (h : GainsTables p r)
    (hout : r.toModule = .ok out) (hbytes : out.encode = .ok bytes)
    (hlength : bytes.length < 2 ^ 32) (hn : Module.decode bytes = .ok n) :
    KeepsTables m p r n ↔
      (r.importedCount .table = p.importedCount .table ∨
        ∀ i ∈ m.fixedTables, i.toNat < p.tables.length → i.toNat < p.importedCount .table) := by
  obtain ⟨_, hdecode, hparsed⟩ := parse_eq_ok_iff.mp hp
  cases hm.symm.trans hdecode
  obtain ⟨q, s, tables, exports, hread⟩ := ofModule_eq_ok hparsed
  obtain ⟨issued, hreaches⟩ := h.reaches
  rw [hread.keepsTables_iff (Module.decode_proper hm) h hout hbytes hlength hn]
  exact forall_keepsTable_iff hread.ordered hreaches.keeps (hreaches.paired hread.paired) _

/-- A table that is imported and one that is defined, which is exported. Segments fill both, the first
without its index. A function asks one of the tables for its size and reads from the second. -/
def sized (table : UInt8) : Bytes :=
  [0x00, 0x61, 0x73, 0x6D, 0x01, 0x00, 0x00, 0x00,
   0x01, 0x04, 0x01, 0x60, 0x00, 0x00,
   0x02, 0x10, 0x01, 0x04, 0x68, 0x6F, 0x73, 0x74, 0x05, 0x66, 0x69, 0x72, 0x73, 0x74,
   0x01, 0x70, 0x00, 0x01,
   0x03, 0x02, 0x01, 0x00,
   0x04, 0x04, 0x01, 0x70, 0x00, 0x02,
   0x07, 0x07, 0x01, 0x03, 0x6F, 0x77, 0x6E, 0x01, 0x01,
   0x09, 0x0F, 0x02, 0x00, 0x41, 0x00, 0x0B, 0x01, 0x00,
   0x02, 0x01, 0x41, 0x00, 0x0B, 0x00, 0x01, 0x00,
   0x0A, 0x0D, 0x01, 0x0B, 0x00, 0xFC, 0x10, table, 0x1A, 0x41, 0x00, 0x25, 0x01, 0x1A, 0x0B]

/-- One more table is imported. -/
def gainTable (p : Program) : Program :=
  (p.importTable "host" "more" ⟨true, -16⟩ 1 none).2

theorem gainTable_gains (p : Program) : GainsTables p (gainTable p) :=
  .single (.imported "host" "more" ⟨true, -16⟩ 1 none)

theorem sized_gained (table : UInt8) (h : table = 0 ∨ table = 1) : ∃ m p out bytes n,
    Module.decode (sized table) = .ok m ∧ parse (sized table) = .ok p ∧
      (gainTable p).toModule = .ok out ∧ out.encode = .ok bytes ∧ bytes.length < 2 ^ 32 ∧
      Module.decode bytes = .ok n ∧ m.fixedTables = [table.toUInt32, 0] ∧ p.tables.length = 2 ∧
      p.importedCount .table = 1 ∧ (gainTable p).importedCount .table = 2 := by
  have hrun : ((Module.decode (sized table)).toOption.any fun m =>
      (m.fixedTables == [table.toUInt32, 0]) && (parse (sized table)).toOption.any fun p =>
        (p.tables.length == 2 && (p.importedCount .table == 1 &&
          (gainTable p).importedCount .table == 2)) &&
        (gainTable p).toModule.toOption.any fun out => out.encode.toOption.any fun bytes =>
          decide (bytes.length < 200) && (Module.decode bytes).toOption.any fun _ => true) = true := by
    rcases h with rfl | rfl <;> decide +kernel
  obtain ⟨m, hm, hrun⟩ := any_toOption_iff.mp hrun
  obtain ⟨hfixed, hrun⟩ := Bool.and_eq_true_iff.mp hrun
  obtain ⟨p, hp, hrun⟩ := any_toOption_iff.mp hrun
  obtain ⟨hcounts, hrun⟩ := Bool.and_eq_true_iff.mp hrun
  obtain ⟨out, hout, hrun⟩ := any_toOption_iff.mp hrun
  obtain ⟨bytes, hbytes, hrun⟩ := any_toOption_iff.mp hrun
  obtain ⟨hlength, hrun⟩ := Bool.and_eq_true_iff.mp hrun
  obtain ⟨n, hn, -⟩ := any_toOption_iff.mp hrun
  simp only [Bool.and_eq_true, beq_iff_eq] at hfixed hcounts
  obtain ⟨htables, himported, himported'⟩ := hcounts
  exact ⟨m, p, out, bytes, n, hm, hp, hout, hbytes, (of_decide_eq_true hlength).trans (by decide), hn,
    hfixed, htables, himported, himported'⟩

theorem sized_zero_kept : ∃ m p out bytes n, Module.decode (sized 0) = .ok m ∧
    parse (sized 0) = .ok p ∧ (gainTable p).toModule = .ok out ∧ out.encode = .ok bytes ∧
    Module.decode bytes = .ok n ∧ (gainTable p).importedCount .table ≠ p.importedCount .table ∧
    KeepsTables m p (gainTable p) n := by
  obtain ⟨m, p, out, bytes, n, hm, hp, hout, hbytes, hlength, hn, hfixed, htables, himported,
    himported'⟩ := sized_gained 0 (.inl rfl)
  refine ⟨m, p, out, bytes, n, hm, hp, hout, hbytes, hn, by omega, ?_⟩
  refine (tables_kept_iff hm hp (gainTable_gains p) hout hbytes hlength hn).mpr (.inr ?_)
  intro i hi _
  rw [hfixed] at hi
  obtain rfl : i = 0 := by simpa using hi
  rw [himported]
  decide

theorem sized_one_moved : ∃ m p out bytes n, Module.decode (sized 1) = .ok m ∧
    parse (sized 1) = .ok p ∧ GainsTables p (gainTable p) ∧ (gainTable p).toModule = .ok out ∧
    out.encode = .ok bytes ∧ Module.decode bytes = .ok n ∧ ¬ KeepsTables m p (gainTable p) n := by
  obtain ⟨m, p, out, bytes, n, hm, hp, hout, hbytes, hlength, hn, hfixed, htables, himported,
    himported'⟩ := sized_gained 1 (.inr rfl)
  refine ⟨m, p, out, bytes, n, hm, hp, gainTable_gains p, hout, hbytes, hn, fun hkept => ?_⟩
  obtain ⟨_, hdecode, hparsed⟩ := parse_eq_ok_iff.mp hp
  cases hm.symm.trans hdecode
  obtain ⟨q, s, tables, exports, hread⟩ := ofModule_eq_ok hparsed
  obtain ⟨issued, hreaches⟩ := (gainTable_gains p).reaches
  rw [hread.keepsTables_iff (Module.decode_proper hm) (gainTable_gains p) hout hbytes hlength hn,
    forall_keepsTable_iff hread.ordered hreaches.keeps (hreaches.paired hread.paired), hfixed,
    himported, himported', htables] at hkept
  exact absurd (hkept.resolve_left (by decide) 1 (by decide) (by decide)) (by decide)

end Program

end HostCatch
