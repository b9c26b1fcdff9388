import HostCatch.Program.Builder
import HostCatch.Proofs.Program.Linking

namespace HostCatch

open List

/-- Memories and globals, and what is of no known kind. -/
def Wire.ImportDesc.isCarried : Wire.ImportDesc → Bool
  | memory _ | global _ | other _ _ => true
  | func _ | table _ | tag _ => false

/-- An identifier and what it stands for. -/
inductive Binding where
  | type (id : TypeId) (type : Signature)
  | func (id : FuncId) (func : Function)
  | table (id : TableId) (table : Table)
  | tag (id : TagId) (tag : Tag)
  | entry (id : ImportId) (entry : Import)
  | exported (id : ExportId) (entry : Export)
  | var (id : LocalId) (type : ValType)

namespace Program

variable {q : Program} {new : List Binding} {p : Program}

/-- What stands at the position that an identifier names. -/
def Holds (p : Program) : Binding → Prop
  | .type id type => p.types[id]? = some type
  | .func id func => p.funcs[id]? = some func
  | .table id table => p.tables[id]? = some table
  | .tag id tag => p.tags[id]? = some tag
  | .entry id entry => p.imports[id]? = some entry
  | .exported id entry => p.exports[id]? = some entry
  | .var id type => p.locals[id]? = some type

/-- One operation on a program, with the identifiers that it hands out. -/
inductive Adds (p : Program) : List Binding → Program → Prop
  | importFunction (module name type) {func entry q} :
      p.importFunction module name type = ((func, entry), q) →
      Adds p [.func func ⟨[], type, .imported entry⟩, .entry entry ⟨module, name, .func func⟩] q
  | importTag (module name type) {tag entry q} :
      p.importTag module name type = ((tag, entry), q) →
      Adds p [.tag tag ⟨type, 0, some entry⟩, .entry entry ⟨module, name, .tag tag⟩] q
  | importTable (module name elem min max) {table entry q} :
      p.importTable module name elem min max = ((table, entry), q) →
      Adds p [.table table ⟨elem, ⟨min, max, false, false⟩, [], some entry⟩,
        .entry entry ⟨module, name, .table table⟩] q
  | addTag (type) {tag q} : p.addTag type = (tag, q) → Adds p [.tag tag ⟨type, 0, none⟩] q
  | addTable (elem min max) {table q} : p.addTable elem min max = (table, q) →
      Adds p [.table table ⟨elem, ⟨min, max, false, false⟩, [], none⟩] q
  | addType (type) {id q} : p.addType type = (id, q) → Adds p [.type id type] q
  | insertType (type) {id q} : p.insertType type = (id, q) → Adds p [.type id type] q
  | addLocal (type) {var q} : p.addLocal type = (var, q) → Adds p [.var var type] q
  | addExport (name target) {id q} : p.addExport name target = (id, q) →
      Adds p [.exported id ⟨name, target⟩] q
  | define (name type params built) {body func q} : Body.finish built params = .ok body →
      p.define name type params built = .ok (func, q) →
      Adds p [.func func ⟨name, type, .defined body⟩] q

/-- The programs that operations lead to, with all the identifiers handed out on the way. -/
inductive Reaches (start : Program) : List Binding → Program → Prop
  | start : Reaches start [] start
  | add {issued p new q} : Reaches start issued p → Adds p new q → Reaches start (issued ++ new) q

/-- Nothing is taken away or moved. -/
structure Keeps (p q : Program) : Prop extends Grown p q where
  types : p.types <+: q.types
  exports : p.exports <+: q.exports
  locals : p.locals <+: q.locals

theorem Keeps.refl (p : Program) : p.Keeps p where
  types := prefix_rfl
  funcs := prefix_rfl
  tables := prefix_rfl
  tags := prefix_rfl
  imports := prefix_rfl
  exports := prefix_rfl
  locals := prefix_rfl

theorem Keeps.trans {r : Program} (hpq : p.Keeps q) (hqr : q.Keeps r) : p.Keeps r where
  toGrown := hpq.toGrown.trans hqr.toGrown
  types := hpq.types.trans hqr.types
  exports := hpq.exports.trans hqr.exports
  locals := hpq.locals.trans hqr.locals

theorem Keeps.holds (h : p.Keeps q) {b : Binding} (hb : p.Holds b) : q.Holds b := by
  cases b with
  | type id type => exact getElem?_of_isPrefix h.types hb
  | func id func => exact getElem?_of_isPrefix h.funcs hb
  | table id table => exact getElem?_of_isPrefix h.tables hb
  | tag id tag => exact getElem?_of_isPrefix h.tags hb
  | entry id entry => exact getElem?_of_isPrefix h.imports hb
  | exported id entry => exact getElem?_of_isPrefix h.exports hb
  | var id type => exact getElem?_of_isPrefix h.locals hb

theorem addType_cases {type : Signature} {id : TypeId} (h : p.addType type = (id, q)) :
    p.types[id]? = some type ∧ q = p ∨ p.insertType type = (id, q) := by
  unfold addType at h
  split at h
  next found hfound =>
    cases h
    obtain ⟨hlt, htype, -⟩ := findIdx?_eq_some_iff_getElem.mp hfound
    rw [decide_eq_true_eq] at htype
    exact .inl ⟨List.getElem?_eq_some_iff.mpr ⟨hlt, htype⟩, rfl⟩
  next => exact .inr h

theorem define_eq_ok {name : Bytes} {type : TypeId} {params : List LocalId} {built body : Body}
    {func : FuncId} (hbody : built.finish params = .ok body)
    (h : p.define name type params built = .ok (func, q)) :
    func = p.funcs.length ∧ q = { p with funcs := p.funcs ++ [⟨name, type, .defined body⟩] } := by
  rw [define, hbody, ok_bind] at h
  cases h
  exact ⟨rfl, rfl⟩

/-- An entity is put behind the others of its kind. -/
def push (p : Program) : Binding → Program
  | .type _ type => { p with types := p.types ++ [type] }
  | .func _ func => { p with funcs := p.funcs ++ [func] }
  | .table _ table => { p with tables := p.tables ++ [table] }
  | .tag _ tag => { p with tags := p.tags ++ [tag] }
  | .entry _ entry => { p with imports := p.imports ++ [entry] }
  | .exported _ entry => { p with exports := p.exports ++ [entry] }
  | .var _ type => { p with locals := p.locals ++ [type] }

/-- The identifier is the next one of its kind. -/
def Next (p : Program) : Binding → Prop
  | .type id _ => id = p.types.length
  | .func id _ => id = p.funcs.length
  | .table id _ => id = p.tables.length
  | .tag id _ => id = p.tags.length
  | .entry id _ => id = p.imports.length
  | .exported id _ => id = p.exports.length
  | .var id _ => id = p.locals.length

theorem push_keeps (p : Program) (b : Binding) : p.Keeps (p.push b) := by
  have hsame := Keeps.refl p
  cases b with
  | type => exact { hsame with types := prefix_append _ _ }
  | func => exact { hsame with funcs := prefix_append _ _ }
  | table => exact { hsame with tables := prefix_append _ _ }
  | tag => exact { hsame with tags := prefix_append _ _ }
  | entry => exact { hsame with imports := prefix_append _ _ }
  | exported => exact { hsame with exports := prefix_append _ _ }
  | var => exact { hsame with locals := prefix_append _ _ }

theorem push_holds_iff {b c : Binding} (h : p.Next b) : (p.push b).Holds c ↔ p.Holds c ∨ c = b := by
  cases b <;> cases c <;> simp_all [push, Holds, Next, getElem?_concat_eq_some_iff]

/-- Entities are put behind the others one by one, each under the next identifier. -/
inductive Pushes : Program → List Binding → Program → Prop
  | nil {at₀} : Pushes at₀ [] at₀
  | cons {at₀ b bs at₁} : at₀.Next b → Pushes (at₀.push b) bs at₁ → Pushes at₀ (b :: bs) at₁

theorem Pushes.keeps (h : Pushes p new q) : p.Keeps q := by
  induction h with
  | nil => exact .refl _
  | cons _ _ ih => exact (push_keeps _ _).trans ih

theorem Pushes.holds_iff {b : Binding} (h : Pushes p new q) : q.Holds b ↔ p.Holds b ∨ b ∈ new := by
  induction h with
  | nil => simp
  | cons hnext _ ih => rw [ih, push_holds_iff hnext, or_assoc, mem_cons]

/-- What an operation does: it puts what it hands out behind all else, unless a type is there already. -/
theorem Adds.pushes (h : p.Adds new q) : (q = p ∧ ∀ b ∈ new, p.Holds b) ∨ Pushes p new q := by
  cases h with
  | importFunction _ _ _ h | importTag _ _ _ h | importTable _ _ _ _ _ h =>
    cases h
    exact .inr (.cons rfl (.cons rfl .nil))
  | addTag _ h | addTable _ _ _ h | insertType _ h | addLocal _ h | addExport _ _ h =>
    cases h
    exact .inr (.cons rfl .nil)
  | addType _ h =>
    obtain ⟨hfound, rfl⟩ | h := addType_cases h
    · exact .inl ⟨rfl, forall_mem_singleton.mpr hfound⟩
    · cases h
      exact .inr (.cons rfl .nil)
  | define _ _ _ _ hbody h =>
    obtain ⟨rfl, rfl⟩ := define_eq_ok hbody h
    exact .inr (.cons rfl .nil)

theorem Adds.keeps (h : p.Adds new q) : p.Keeps q := by
  obtain ⟨rfl, -⟩ | hpushes := h.pushes
  · exact .refl q
  · exact hpushes.keeps

/-- What a program has after an operation is what it had and what was handed out. -/
theorem Adds.holds_iff {b : Binding} (h : p.Adds new q) : q.Holds b ↔ p.Holds b ∨ b ∈ new := by
  obtain ⟨rfl, hheld⟩ | hpushes := h.pushes
  · exact ⟨.inl, fun hb => hb.elim id (hheld b)⟩
  · exact hpushes.holds_iff

/-- Imports and what they provide still name each other. -/
theorem Adds.paired (h : p.Adds new q) (hp : p.Paired) : q.Paired := by
  obtain ⟨hfuncs, htables, htags⟩ := hp
  cases h with
  | importFunction _ _ _ h =>
    cases h
    refine ⟨?_, htables.skip rfl, htags.skip rfl⟩
    rw [map_append]
    exact hfuncs.concat (by simp [Import.func?])
  | importTag _ _ _ h =>
    cases h
    refine ⟨hfuncs.skip rfl, htables.skip rfl, ?_⟩
    rw [map_append]
    exact htags.concat (by simp [Import.tag?])
  | importTable _ _ _ _ _ h =>
    cases h
    refine ⟨hfuncs.skip rfl, ?_, htags.skip rfl⟩
    rw [map_append]
    exact htables.concat (by simp [Import.table?])
  | addTag _ h =>
    cases h
    refine ⟨hfuncs, htables, ?_⟩
    rw [map_append]
    exact htags.append (by simp)
  | addTable _ _ _ h =>
    cases h
    refine ⟨hfuncs, ?_, htags⟩
    rw [map_append]
    exact htables.append (by simp)
  | addType _ h =>
    obtain ⟨-, rfl⟩ | h := addType_cases h
    · exact ⟨hfuncs, htables, htags⟩
    · cases h
      exact ⟨hfuncs, htables, htags⟩
  | insertType _ h | addLocal _ h | addExport _ _ h =>
    cases h
    exact ⟨hfuncs, htables, htags⟩
  | define _ _ _ _ hbody h =>
    obtain ⟨-, rfl⟩ := define_eq_ok hbody h
    refine ⟨?_, htables, htags⟩
    rw [map_append]
    exact hfuncs.append (by simp [Function.import?])

theorem Adds.mem_tables (h : p.Adds new q) {t : Table} (ht : t ∈ q.tables) :
    t ∈ p.tables ∨ t.init = [] := by
  obtain ⟨id, hid⟩ := mem_iff_getElem?.mp ht
  refine (h.holds_iff (b := .table id t) |>.mp hid).imp mem_of_getElem? fun hnew => ?_
  cases h <;> simp_all

theorem Adds.mem_imports (h : p.Adds new q) {i : Import} (hi : i ∈ q.imports) :
    i ∈ p.imports ∨ ∀ desc, i.target ≠ .carried desc := by
  obtain ⟨id, hid⟩ := mem_iff_getElem?.mp hi
  refine (h.holds_iff (b := .entry id i) |>.mp hid).imp mem_of_getElem? fun hnew => ?_
  cases h <;> simp_all

/-- Imports that are kept as they are written provide no functions, tables or tags. -/
def CarriesOthers (p : Program) : Prop :=
  ∀ i ∈ p.imports, ∀ desc, i.target = .carried desc → desc.isCarried = true

theorem CarriesOthers.concat {i : Import} (h : p.CarriesOthers) (hq : q.imports = p.imports ++ [i])
    (hi : ∀ desc, i.target = .carried desc → desc.isCarried = true) : q.CarriesOthers := by
  intro j hj
  rw [hq] at hj
  rcases mem_append.mp hj with hj | hj
  · exact h j hj
  · cases mem_singleton.mp hj
    exact hi

theorem Takes.carriesOthers {e : Wire.Import} (h : Takes p e q) (hp : p.CarriesOthers) :
    q.CarriesOthers := by
  cases h with
  | func | table | tag => exact hp.concat rfl nofun
  | memory | global | other =>
    refine hp.concat rfl ?_
    rintro _ ⟨⟩
    rfl

theorem ReadFrom.carriesOthers {m : Wire.Module} {s : Program} {tables : List Table}
    {exports : List Export} (h : ReadFrom m p q s tables exports) : p.CarriesOthers := by
  obtain ⟨types, -, hfolds⟩ := h.assembles.imports
  have hq : q.CarriesOthers := hfolds.induction (motive := CarriesOthers) nofun
    fun _ _ _ hp htakes => htakes.carriesOthers hp
  have himports : p.imports = q.imports := by
    rw [h.parts, assembled]
  intro i hi
  exact hq i (himports ▸ hi)

theorem Adds.carriesOthers (h : p.Adds new q) (hp : p.CarriesOthers) : q.CarriesOthers := by
  intro i hi desc hdesc
  rcases h.mem_imports hi with hi | hnot
  · exact hp i hi desc hdesc
  · exact absurd hdesc (hnot desc)

namespace Reaches

variable {start p : Program} {issued : List Binding}

theorem keeps (h : Reaches start issued p) : start.Keeps p := by
  induction h with
  | start => exact .refl _
  | add _ hadds ih => exact ih.trans hadds.keeps

/-- What an identifier stands for when it is handed out it stands for ever after, and there is nothing
but what was there and what was handed out. -/
theorem holds_iff {b : Binding} (h : Reaches start issued p) :
    p.Holds b ↔ start.Holds b ∨ b ∈ issued := by
  induction h with
  | start => simp
  | add _ hadds ih => rw [hadds.holds_iff, ih, or_assoc, mem_append]

theorem paired (h : Reaches start issued p) (hstart : start.Paired) : p.Paired := by
  induction h with
  | start => exact hstart
  | add _ hadds ih => exact hadds.paired ih

theorem carriesOthers (h : Reaches start issued p) (hstart : start.CarriesOthers) :
    p.CarriesOthers := by
  induction h with
  | start => exact hstart
  | add _ hadds ih => exact hadds.carriesOthers ih

end Reaches

/-- Where programs begin: with nothing, or with a module that was read. -/
def IsStart (p : Program) : Prop :=
  p = {} ∨ ∃ m, ofModule m = .ok p

theorem IsStart.paired (h : p.IsStart) : p.Paired := by
  obtain rfl | ⟨m, hm⟩ := h
  · exact ⟨.nil _, .nil _, .nil _⟩
  · obtain ⟨q, s, tables, exports, hr⟩ := ofModule_eq_ok hm
    exact hr.paired

theorem IsStart.carriesOthers (h : p.IsStart) : p.CarriesOthers := by
  obtain rfl | ⟨m, hm⟩ := h
  · nofun
  · obtain ⟨q, s, tables, exports, hr⟩ := ofModule_eq_ok hm
    exact hr.carriesOthers

end Program

end HostCatch
