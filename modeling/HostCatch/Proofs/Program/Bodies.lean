import HostCatch.Proofs.Program.Ordered
import HostCatch.Program.ToModule

namespace HostCatch

open List

def Function.unnamed (f : Function) : Function :=
  { f with name := [] }

theorem map_modify_of_eq {α β : Type} {g : α → β} {f : α → α} (h : ∀ a, g (f a) = g a)
    (as : List α) (n : Nat) : (as.modify n f).map g = as.map g := by
  refine ext_getElem? fun k => ?_
  simp only [getElem?_map, getElem?_modify]
  split <;> cases as[k]? <;> simp [h]

namespace Program

variable {r : Program} {func : FuncId} {code : Wire.FuncBody} {start : Nat}
  {declared : List ValType} {b : Body} {codes : List Wire.FuncBody}
  {p q : Program}

/-- Only names of functions, subsections of names and custom sections may differ. -/
structure Renamed (p q : Program) : Prop where
  rest : q = { p with funcs := q.funcs, names := q.names, customs := q.customs }
  funcs : q.funcs.map Function.unnamed = p.funcs.map Function.unnamed

theorem Renamed.refl (p : Program) : Renamed p p :=
  ⟨rfl, rfl⟩

theorem Renamed.trans (hq : Renamed p q) (hr : Renamed q r) : Renamed p r := by
  refine ⟨?_, hr.funcs.trans hq.funcs⟩
  rw [hr.rest, hq.rest]

theorem assignName_renamed (p : Program) (e : NameEntry) : Renamed p (p.assignName e) :=
  ⟨rfl, map_modify_of_eq (f := fun f => { f with name := e.name }) (fun _ => rfl) p.funcs _⟩

theorem foldl_renamed {α : Type} {f : Program → α → Program} (h : ∀ p a, Renamed p (f p a))
    (as : List α) (p : Program) : Renamed p (as.foldl f p) := by
  induction as generalizing p with
  | nil => exact .refl p
  | cons a as ih => exact (h p a).trans (ih _)

theorem takeCustom_renamed (p : Program) (c : Wire.Custom) : Renamed p (p.takeCustom c) := by
  have hnames := foldl_renamed assignName_renamed (NameScan.ofBytes c.data).funcs p
  unfold takeCustom
  dsimp only
  split
  next =>
    split
    next => exact hnames.trans ⟨rfl, rfl⟩
    next => exact hnames.trans ⟨rfl, rfl⟩
  next => exact ⟨rfl, rfl⟩

theorem Renamed.ordered (h : Renamed p q) (hp : p.Ordered) : q.Ordered := by
  have himported : q.funcs.map Function.isImported = p.funcs.map Function.isImported := by
    have := congrArg (List.map Function.isImported) h.funcs
    rwa [map_map, map_map] at this
  obtain ⟨hfuncs, htables, htags⟩ := hp
  rw [h.rest]
  exact ⟨himported ▸ hfuncs, htables, htags⟩

theorem Renamed.length (h : Renamed p q) : q.funcs.length = p.funcs.length := by
  simpa using congrArg List.length h.funcs

/-- What the body of a function may refer to. -/
def scope (p : Program) (func : FuncId) (vars : List LocalId) : Scope :=
  ⟨func, vars, p.types.length, p.funcs.length, p.tables.length, p.tags.length⟩

def typeOf (p : Program) (func : FuncId) : TypeId :=
  (p.funcs[func]?.map Function.type).getD 0

/-- The body that the code of a function spells, with its variables numbered from `start` on. -/
structure ReadsBody (p : Program) (func : FuncId) (start : Nat) (code : Wire.FuncBody)
    (declared : List ValType) (b : Body) : Prop where
  types : declaredTypes (p.scope func []) code.locals = .ok declared
  params : b.params.length = (p.params (p.typeOf func)).length
  vars : b.params ++ b.locals =
    List.range' start ((p.params (p.typeOf func)).length + declared.length)
  seqs : Body.seqsOfCode (p.scope func (b.params ++ b.locals)) (p.typeOf func) code.code = .ok b.seqs
  entry : b.entry = 0

/-- Reading a body gives its function the body, and its variables new identifiers. -/
theorem takeBody_eq_ok_iff :
    p.takeBody func code = .ok r ↔ ∃ declared b, p.ReadsBody func p.locals.length code declared b ∧
      r = { p with locals := p.locals ++ p.params (p.typeOf func) ++ declared }.setBody func b := by
  constructor
  · intro h
    obtain ⟨declared, hdeclared, h⟩ := of_bind h
    obtain ⟨seqs, hseqs, h⟩ := of_bind h
    refine ⟨declared, _, ?_, (pure_eq_ok_iff.mp h).symm⟩
    refine ⟨hdeclared, ?_, take_append_drop _ _, ?_, rfl⟩
    · simp [typeOf]
    · rw [take_append_drop]
      exact hseqs
  · rintro ⟨declared, ⟨params, locals, seqs, entry⟩, ⟨htypes, hparams, hvars, hseqs, hentry⟩, rfl⟩
    dsimp only at hparams hvars hseqs hentry
    have htake : params = (params ++ locals).take (p.params (p.typeOf func)).length := by
      rw [← hparams, take_left]
    have hdrop : locals = (params ++ locals).drop (p.params (p.typeOf func)).length := by
      rw [← hparams, drop_left]
    rw [hvars] at htake hdrop hseqs
    subst htake hdrop hentry
    exact bind_eq_ok_iff.mpr ⟨declared, htypes, bind_eq_ok_iff.mpr ⟨seqs, hseqs, rfl⟩⟩

/-- What holds at the start and is kept by every step holds at the end. -/
theorem foldNumbered_induction {α : Type} {f : Program → Nat → α → Except Fault Program}
    {motive : Nat → Program → Prop} {as : List α} (h : foldNumbered f p as = .ok r)
    (initial : motive 0 p)
    (step : ∀ i a p q, as[i]? = some a → motive i p → f p i a = .ok q → motive (i + 1) q) :
    motive as.length r := by
  -- the rest of the list is read from `start` on
  have hrest : ∀ (rest : List α) start p, (∀ i, rest[i]? = as[start + i]?) → motive start p →
      (rest.zipIdx start).foldlM (fun p e => f p e.2 e.1) p = .ok r →
      motive (start + rest.length) r := by
    intro rest
    induction rest with
    | nil =>
      intro start p _ hp h
      cases h
      exact hp
    | cons a rest ih =>
      intro start p hget hp h
      obtain ⟨q, hq, h⟩ := of_bind h
      have hall := ih (start + 1) q
        (fun i => by rw [Nat.add_assoc, Nat.add_comm 1, ← hget, getElem?_cons_succ])
        (step start a p q (by rw [← Nat.add_zero start, ← hget]; rfl) hp hq) h
      rwa [Nat.add_assoc, Nat.add_comm 1] at hall
  have hall := hrest as 0 p (fun i => by rw [Nat.zero_add]) initial h
  rwa [Nat.zero_add] at hall

theorem ReadsBody.unique {declared' : List ValType} {b' : Body}
    (h : p.ReadsBody func start code declared b) (h' : p.ReadsBody func start code declared' b') :
    declared' = declared ∧ b' = b := by
  cases h.types.symm.trans h'.types
  obtain ⟨params, locals, seqs, entry⟩ := b
  obtain ⟨params', locals', seqs', entry'⟩ := b'
  obtain ⟨rfl, rfl⟩ := append_inj (h.vars.trans h'.vars.symm) (h.params.trans h'.params.symm)
  cases h.seqs.symm.trans h'.seqs
  cases h.entry
  cases h'.entry
  exact ⟨rfl, rfl⟩

/-- Only bodies and local variables may differ. -/
structure Bodied (p q : Program) : Prop where
  rest : q = { p with funcs := q.funcs, locals := q.locals }
  heads : q.funcs.map (fun f => (f.name, f.type)) = p.funcs.map fun f => (f.name, f.type)

theorem setBody_of_ne (p : Program) {func k : Nat} (b : Body) (h : func ≠ k) :
    (p.setBody func b).funcs[k]? = p.funcs[k]? := by
  simp [setBody, h]

theorem setBody_self (p : Program) {func : Nat} (b : Body) {f : Function}
    (h : p.funcs[func]? = some f) :
    (p.setBody func b).funcs[func]? = some { f with kind := .defined b } := by
  simp [setBody, h]

theorem Bodied.length (h : Bodied p q) : q.funcs.length = p.funcs.length := by
  simpa using congrArg List.length h.heads

theorem Bodied.typeOf (h : Bodied p q) (func : FuncId) : q.typeOf func = p.typeOf func := by
  have hheads := congrArg (fun l => l[func]?.map Prod.snd) h.heads
  simp only [getElem?_map, Option.map_map, Function.comp_def] at hheads
  exact congrArg (Option.getD · 0) hheads

theorem Bodied.setBody (h : Bodied p q) (locals : List ValType) (func : FuncId) (b : Body) :
    Bodied p ({ q with locals }.setBody func b) := by
  refine ⟨?_, ?_⟩
  · rw [h.rest]
    rfl
  · rw [← h.heads]
    exact map_modify_of_eq (f := fun f => { f with kind := .defined b })
      (g := fun f => (f.name, f.type)) (fun _ => rfl) q.funcs func

/-- What code spells depends on the types, on those of functions and on how many entities there are. -/
theorem ReadsBody.transfer (h : p.ReadsBody func start code declared b) (htypes : q.types = p.types)
    (hfuncs : q.funcs.map Function.type = p.funcs.map Function.type)
    (htables : q.tables.length = p.tables.length) (htags : q.tags.length = p.tags.length) :
    q.ReadsBody func start code declared b := by
  have hlength : q.funcs.length = p.funcs.length := by
    simpa using congrArg List.length hfuncs
  have hscope : ∀ vars, q.scope func vars = p.scope func vars := by
    intro vars
    rw [scope, scope, htypes, hlength, htables, htags]
  have htype : q.typeOf func = p.typeOf func := by
    rw [typeOf, typeOf, ← getElem?_map, ← getElem?_map, hfuncs]
  have hparams : ∀ type, q.params type = p.params type := by
    intro type
    rw [Program.params, Program.params, htypes]
  constructor
  · rw [hscope, h.types]
  · rw [htype, hparams, h.params]
  · rw [htype, hparams, h.vars]
  · rw [hscope, htype, h.seqs]
  · exact h.entry

theorem ReadsBody.congr (hpq : Bodied p q) (h : p.ReadsBody func start code declared b) :
    q.ReadsBody func start code declared b := by
  have hfuncs : q.funcs.map Function.type = p.funcs.map Function.type := by
    have hheads := congrArg (List.map Prod.snd) hpq.heads
    rwa [map_map, map_map] at hheads
  refine h.transfer ?_ hfuncs ?_ ?_ <;> rw [hpq.rest]

/-- The first `n` bodies have been read, those of the functions from `first` on. -/
structure BodiesRead (p : Program) (first : Nat) (codes : List Wire.FuncBody) (n : Nat)
    (q : Program) : Prop extends Bodied p q where
  untouched : ∀ k, k < first ∨ first + n ≤ k → q.funcs[k]? = p.funcs[k]?
  bodies : ∀ i code, i < n → codes[i]? = some code → ∃ start declared b f,
    q.funcs[first + i]? = some f ∧ f.kind = .defined b ∧
      p.ReadsBody (first + i) start code declared b ∧
      ∀ (j : Nat) (v : ValType), (p.params (p.typeOf (first + i)) ++ declared)[j]? = some v →
        q.locals[start + j]? = some v

/-- Reading one more body leaves the earlier ones as they are. -/
theorem BodiesRead.step {first n : Nat} (h : p.BodiesRead first codes n q)
    (hcode : codes[n]? = some code) (hbound : first + codes.length ≤ p.funcs.length)
    (hr : q.takeBody (first + n) code = .ok r) : p.BodiesRead first codes (n + 1) r := by
  obtain ⟨declared, b, hread, rfl⟩ := takeBody_eq_ok_iff.mp hr
  have hlt : first + n < p.funcs.length := by
    have := lt_of_getElem? hcode
    omega
  have hback : Bodied q p := ⟨by rw [h.rest], h.heads.symm⟩
  refine ⟨h.toBodied.setBody _ _ _, ?_, ?_⟩
  · intro k hk
    rw [setBody_of_ne _ _ (by omega)]
    exact h.untouched k (by omega)
  · intro i found hi hfound
    rcases Nat.lt_succ_iff_lt_or_eq.mp hi with hi | rfl
    · obtain ⟨start, types, c, f, hf, hkind, hc, hlocals⟩ := h.bodies i found hi hfound
      refine ⟨start, types, c, f, ?_, hkind, hc, fun j v hv => ?_⟩
      · rw [setBody_of_ne _ _ (by omega)]
        exact hf
      · have hold := hlocals j v hv
        have hj := lt_of_getElem? hold
        simp only [setBody, append_assoc]
        rwa [getElem?_append_left hj]
    · cases hcode.symm.trans hfound
      obtain ⟨f, hf⟩ : ∃ f, q.funcs[first + i]? = some f :=
        ⟨_, getElem?_eq_getElem (h.toBodied.length ▸ hlt)⟩
      refine ⟨_, declared, b, _, setBody_self _ b hf, rfl, hread.congr hback, ?_⟩
      have hparams : q.params (q.typeOf (first + i)) = p.params (p.typeOf (first + i)) := by
        rw [h.toBodied.typeOf, h.rest]
        rfl
      intro j v hv
      rw [← hparams] at hv
      simp only [setBody, append_assoc]
      rwa [getElem?_append_right (Nat.le_add_right _ _), Nat.add_sub_cancel_left]

theorem takeBodies_eq_ok {first : Nat} (hbound : first + codes.length ≤ p.funcs.length)
    (h : foldNumbered (fun p i code => p.takeBody (first + i) code) p codes = .ok q) :
    p.BodiesRead first codes codes.length q := by
  refine foldNumbered_induction (motive := p.BodiesRead first codes) h ?_ ?_
  · exact ⟨⟨rfl, rfl⟩, fun _ _ => rfl, fun _ _ hi => absurd hi (Nat.not_lt_zero _)⟩
  · intro i code q r hcode hq hr
    exact hq.step hcode hbound hr

/-- How a program was read: `q` is what the imports lead to and `s` lacks only the bodies. -/
structure ReadFrom (m : Wire.Module) (p q s : Program) (tables : List Table)
    (exports : List Export) : Prop where
  assembles : Assembles m q tables exports
  customs : s = m.customs.foldl takeCustom (q.assembled m tables exports)
  read : foldNumbered (fun p i code => p.takeBody (q.funcs.length + i) code) s m.code = .ok p
  bodies : s.BodiesRead q.funcs.length m.code m.code.length p

theorem parse_eq_ok_iff {data : Bytes} :
    parse data = .ok p ↔ ∃ m, Wire.Module.decode data = .ok m ∧ ofModule m = .ok p := by
  have hmodule : ∀ m, parseModule data = .ok m ↔ Wire.Module.decode data = .ok m := by
    intro m
    unfold parseModule
    split
    next hm => simp [hm]
    next hm => simp [hm]
  rw [parse, bind_eq_ok_iff]
  simp only [hmodule]

theorem ofModule_eq_ok {m : Wire.Module} (h : ofModule m = .ok p) :
    ∃ q s tables exports, ReadFrom m p q s tables exports := by
  obtain ⟨s, hs, h⟩ := of_bind h
  obtain ⟨q, tables, exports, hassembles, hcustoms⟩ := skeleton_eq_ok_iff.mp hs
  have hlength : s.funcs.length = q.funcs.length + m.code.length := by
    have hrenamed := foldl_renamed takeCustom_renamed m.customs (q.assembled m tables exports)
    rw [hcustoms, hrenamed.length, ← hassembles.bodies]
    simp [assembled]
  rw [hlength, Nat.add_sub_cancel] at h
  exact ⟨q, s, tables, exports, hassembles, hcustoms, h, takeBodies_eq_ok (by omega) h⟩

namespace ReadFrom

variable {m : Wire.Module} {p q s : Program} {tables : List Table} {exports : List Export}
variable (h : ReadFrom m p q s tables exports)

include h

theorem renamed : Renamed (q.assembled m tables exports) s :=
  h.customs ▸ foldl_renamed takeCustom_renamed m.customs _

theorem length : p.funcs.length = q.funcs.length + m.code.length := by
  rw [h.bodies.toBodied.length, h.renamed.length, ← h.assembles.bodies]
  simp [assembled]

theorem imports : p.imports = q.imports := by
  rw [h.bodies.rest, h.renamed.rest]
  rfl

theorem imported : (p.imports.filterMap Import.func?).length = q.funcs.length := by
  obtain ⟨types, -, himports⟩ := h.assembles.imports
  have hall := himports.takes_allImported
  rw [h.imports, hall.funcs.length_of_all hall.funcsImported, length_map]

theorem isImported_eq : p.funcs.map Function.isImported = s.funcs.map Function.isImported := by
  have hs := (h.renamed.ordered h.assembles.ordered).funcs
  have himports : s.imports = p.imports := by
    rw [h.bodies.rest]
  rw [himports] at hs
  refine ext_getElem? fun k => ?_
  by_cases hk : k < q.funcs.length ∨ q.funcs.length + m.code.length ≤ k
  · rw [getElem?_map, getElem?_map, h.bodies.untouched k hk]
  · obtain ⟨i, rfl⟩ : ∃ i, k = q.funcs.length + i := ⟨k - q.funcs.length, by omega⟩
    have hi : i < m.code.length := by omega
    obtain ⟨_, _, b, f, hf, hkind, -, -⟩ := h.bodies.bodies i m.code[i] hi (by simp)
    obtain ⟨-, n, hn⟩ := hs
    have hlength := congrArg List.length hn
    simp only [length_map, length_append, length_replicate, h.imported,
      ← h.bodies.toBodied.length, h.length] at hlength
    rw [hn, h.imported, getElem?_append_right (by simp), getElem?_map, hf]
    simp only [length_replicate, Nat.add_sub_cancel_left, Option.map_some]
    rw [getElem?_replicate_of_lt (by omega)]
    simp [Function.isImported, Function.import?, hkind]

theorem ordered : p.Ordered := by
  obtain ⟨hfuncs, htables, htags⟩ := h.renamed.ordered h.assembles.ordered
  rw [← h.isImported_eq] at hfuncs
  rw [h.bodies.rest]
  exact ⟨hfuncs, htables, htags⟩

/-- Each code was read as the body of its function. -/
theorem body {i : Nat} (hcode : m.code[i]? = some code) :
    ∃ start declared b f, p.funcs[q.funcs.length + i]? = some f ∧ f.kind = .defined b ∧
      p.ReadsBody (q.funcs.length + i) start code declared b ∧
      ∀ (j : Nat) (v : ValType),
        (p.params (p.typeOf (q.funcs.length + i)) ++ declared)[j]? = some v →
          p.locals[start + j]? = some v := by
  obtain ⟨start, declared, b, f, hf, hkind, hread, hlocals⟩ :=
    h.bodies.bodies i code (lt_of_getElem? hcode) hcode
  refine ⟨start, declared, b, f, hf, hkind, hread.congr h.bodies.toBodied, ?_⟩
  have hparams : p.params (p.typeOf (q.funcs.length + i)) =
      s.params (s.typeOf (q.funcs.length + i)) := by
    rw [h.bodies.toBodied.typeOf, h.bodies.rest]
    rfl
  rw [hparams]
  exact hlocals

theorem defined {k : Nat} {f : Function} (hf : p.funcs[k]? = some f) (hkind : f.kind = .defined b) :
    ∃ i, k = q.funcs.length + i ∧ i < m.code.length := by
  have hlt := lt_of_getElem? hf
  rw [h.length] at hlt
  have hle : q.funcs.length ≤ k := by
    by_contra hk
    obtain ⟨-, n, hn⟩ := h.ordered.funcs
    have himported := congrArg (·[k]?) hn
    rw [h.imported] at himported
    simp only [getElem?_map, hf, Option.map_some] at himported
    rw [getElem?_append_left (by simpa using hk),
      getElem?_replicate_of_lt (Nat.lt_of_not_le hk), Option.some.injEq] at himported
    simp [Function.isImported, Function.import?, hkind] at himported
  exact ⟨k - q.funcs.length, by omega, by omega⟩

theorem parts : p = { q.assembled m tables exports with
    funcs := p.funcs, locals := p.locals, names := p.names, customs := p.customs } := by
  have hnames : p.names = s.names := by rw [h.bodies.rest]
  have hcustoms : p.customs = s.customs := by rw [h.bodies.rest]
  have hrest := h.bodies.rest
  rw [h.renamed.rest] at hrest
  rw [hnames, hcustoms]
  exact hrest

theorem signatures : mapNumbered signatureOf m.types = .ok p.types ∧
    Folds Takes { types := p.types } m.imports q := by
  obtain ⟨start, hstart, himports⟩ := h.assembles.imports
  have htypes : start = p.types := by
    rw [h.parts, himports.takes_rest]
    rfl
  rw [← htypes]
  exact ⟨hstart, himports⟩

theorem types_eq :
    p.funcs.map Function.type = (q.assembled m tables exports).funcs.map Function.type := by
  have hheads := congrArg (List.map Prod.snd) h.bodies.heads
  have hunnamed := congrArg (List.map Function.type) h.renamed.funcs
  simp only [map_map] at hheads hunnamed
  exact hheads.trans hunnamed

theorem funcTypes : ∀ f ∈ p.funcs, f.type < p.types.length := by
  obtain ⟨types, -, himports⟩ := h.assembles.imports
  have hq : ∀ f ∈ q.funcs, f.type < q.types.length := by
    refine himports.induction (motive := fun q => ∀ f ∈ q.funcs, f.type < q.types.length) nofun ?_
    intro q e r hq htakes
    cases htakes with
    | func hlt =>
      intro f hf
      rcases mem_append.mp hf with hf | hf
      · exact hq f hf
      · rw [mem_singleton.mp hf]
        exact hlt
    | _ => exact hq
  have hptypes : p.types = q.types := by
    rw [h.parts]
    rfl
  intro f hf
  have hmem : f.type ∈ (q.assembled m tables exports).funcs.map Function.type :=
    h.types_eq ▸ mem_map_of_mem hf
  obtain ⟨g, hg, htype⟩ := mem_map.mp hmem
  rw [← htype, hptypes]
  rcases mem_append.mp hg with hg | hg
  · exact hq g hg
  · obtain ⟨t, ht, rfl⟩ := mem_map.mp hg
    exact h.assembles.funcTypes t ht

theorem names_eq : p.funcs.map Function.name = s.funcs.map Function.name := by
  have hheads := congrArg (List.map Prod.fst) h.bodies.heads
  simp only [map_map] at hheads
  exact hheads

end ReadFrom

end Program

end HostCatch
