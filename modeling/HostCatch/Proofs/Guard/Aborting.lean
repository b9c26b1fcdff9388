import HostCatch.Proofs.Guard.Editing
import HostCatch.Proofs.Guard.Idempotence
import HostCatch.Proofs.Program.Resolving

namespace HostCatch

open List

variable {tables : Nat} {i : Instr}

theorem Instr.Within.redirect {tags : Nat} (h : i.Within tables tags) (κ : FuncId → FuncId) :
    (i.redirect κ).Within tables tags := by
  cases i <;> exact h

theorem Instr.Within.grow {tags tags' : Nat} (h : i.Within tables tags) (htags : tags ≤ tags') :
    i.Within tables tags' := by
  cases i with
  | throw => exact Nat.lt_of_lt_of_le h htags
  | tryCatch => exact fun k hk tag htag => Nat.lt_of_lt_of_le (h k hk tag htag) htags
  | tryTable => exact fun c hc htakes => Nat.lt_of_lt_of_le (h c hc htakes) htags
  | _ => exact h

theorem ExportTarget.Within.grow {p q : Program} {t : ExportTarget} (h : t.Within p)
    (hfuncs : p.funcs.length ≤ q.funcs.length) (htables : p.tables.length ≤ q.tables.length)
    (htags : p.tags.length ≤ q.tags.length) : t.Within q := by
  cases t with
  | func => exact Nat.lt_of_lt_of_le h hfuncs
  | table => exact Nat.lt_of_lt_of_le h htables
  | tag => exact Nat.lt_of_lt_of_le h htags
  | other => trivial

theorem Nested.redirect {seqs : List Seq} (h : Nested seqs) (κ : FuncId → FuncId) :
    Nested (seqs.map (Seq.redirect κ)) := by
  have hchildren : ∀ s : Seq, (s.redirect κ).children = s.children := by
    intro s
    simp only [Seq.children, Seq.redirect, flatMap_map, Instr.children_redirect]
  constructor
  · simpa only [flatMap_map, hchildren, length_map] using h.perm
  · intro id s hs
    rw [getElem?_map] at hs
    obtain ⟨t, ht, rfl⟩ := Option.map_eq_some_iff.mp hs
    rw [hchildren]
    exact h.ascending id t ht

theorem Recipe.Leaf.within {r : Recipe} (h : r.Leaf i) (htable : r.handles.table < tables)
    (tags : Nat) : i.Within tables tags := by
  cases h with
  | keep => exact htable
  | _ => trivial

namespace Program

variable {m : Wire.Module} {p p' q s : Program} {tables : List Table} {exports : List Export}
variable {κ : FuncId → FuncId → FuncId} {new : Option TagImport} {types : List Signature}
variable {more : List Function}
  {tag : TagId} {handles : Handles} {A : Abort → Prop} {flagged : List FuncId}
  {strategy : Strategy}

/-- A wrapper names no table or tag that is not there. -/
theorem Crafted.within {locals : List ValType} {id : FuncId} {g : Function} {r : Recipe}
    {defaults : List Instr} {seqs : List Seq}
    (h : Crafted tag handles types locals id g r defaults seqs) {tables tags : Nat}
    (htable : handles.table < tables) (htag : tag < tags) : Nested seqs ∧
      ∀ s ∈ seqs, ∀ i ∈ s.instrs, i.Within tables tags := by
  have htable' : r.handles.table < tables := h.handles ▸ htable
  have htag' : r.tag < tags := h.tag ▸ htag
  refine ⟨?_, fun s hs i hi => ?_⟩
  · rcases h.code with rfl | ⟨handlerType, tried, rfl, -⟩
    · exact modernSeqs_nested h.values _
    · exact legacySeqs_nested h.values _ _ _
  · obtain rfl | rfl | rfl | hleaf := h.instr hs hi
    · trivial
    · exact forall_mem_singleton.mpr fun _ => htag'
    · refine forall_mem_singleton.mpr ?_
      rintro _ ⟨⟩
      exact htag'
    · exact hleaf.within htable' _

theorem Provides.tag_lt (h : p.Provides tag types new) :
    tag < p.tags.length + new.toList.length := by
  cases h with
  | found hfound =>
    unfold existingTag at hfound
    split at hfound
    next => cases hfound
    next =>
      split at hfound
      next => cases hfound
      next =>
        split at hfound
        next hsome =>
          cases hfound
          obtain ⟨t, ht, -⟩ := Option.bind_eq_some_iff.mp hsome
          exact lt_of_getElem? ht
        next => cases hfound
  | imported _ htag _ =>
    subst htag
    exact Nat.lt_succ_self _

/-- The pass leaves a program that names only what is there. -/
theorem Rewrapped.closed {o : Outcome} (h : p.Rewrapped o tag handles new types more)
    (hr : ReadFrom m p q s tables exports) (htable : handles.table < p.tables.length) :
    o.program.Closed where
  paired := h.altered.paired hr.paired
  bodies := by
    have hwalk {b : Body} (hnested : Nested b.seqs) (hentry : b.entry = 0)
        (hwithin : ∀ s ∈ b.seqs, ∀ i ∈ s.instrs, i.Within p.tables.length o.program.tags.length) :
        ∃ visits, b.walk = .ok visits ∧
          ∀ v ∈ visits, v.instr.Within o.program.tables.length o.program.tags.length := by
      obtain ⟨visits, hvisits, -⟩ := Body.isTree_of_nested hnested hentry
      rw [h.altered.tables_eq]
      exact ⟨visits, hvisits, Body.walk_within hvisits hwithin⟩
    intro f hf b hkind
    rw [h.altered.funcs_eq] at hf
    rcases mem_append.mp hf with hf | hf
    · obtain ⟨id, hid⟩ := getElem?_of_mem hf
      rw [getElem?_mapIdx] at hid
      obtain ⟨g, hg, rfl⟩ := Option.map_eq_some_iff.mp hid
      cases hbody : g.kind with
      | imported entry => simp [Function.redirect, hbody] at hkind
      | defined c =>
        obtain rfl : c.redirect _ = b := by simpa [Function.redirect, hbody] using hkind
        obtain ⟨hnested, hentry⟩ := hr.nested (mem_of_getElem? hg) hbody
        refine hwalk (hnested.redirect _) hentry (forall_mem_map.mpr fun t ht => ?_)
        refine forall_mem_map.mpr fun i hi => ?_
        have hwithin := hr.within (mem_of_getElem? hg) hbody t ht i hi
        exact (hwithin.redirect _).grow (h.altered.tags_length ▸ Nat.le_add_right _ _)
    · obtain ⟨n, hn⟩ := getElem?_of_mem hf
      obtain ⟨_, _, _, _, -, hcrafted⟩ := h.crafted n f hn
      cases hkind.symm.trans hcrafted.kind
      have htag : tag < o.program.tags.length := h.altered.tags_length ▸ h.tagged.tag_lt
      obtain ⟨hnested, hwithin⟩ := hcrafted.within htable htag
      exact hwalk hnested rfl hwithin
  exports := by
    have hexports : o.program.exports = p.exports := by rw [h.altered.carried]
    rw [hexports]
    intro e he
    refine (hr.closed.exports e he).grow ?_ (Nat.le_of_eq (by rw [h.altered.tables_eq])) ?_
    · exact h.altered.funcs_length ▸ Nat.le_add_right _ _
    · exact h.altered.tags_length ▸ Nat.le_add_right _ _

/-- What may stop a transformation: a selected import that gives a vector, or a function to start with
that is not there, not even among the wrappers. -/
inductive Stops (p : Program) (c : Config) : Abort → Prop
  | vector {id f} : id ∈ p.selected c → p.funcs[id]? = some f → .v128 ∈ p.results f.type →
      Stops p c (.unsupported (.unsupportedType .transform [p.baseName id f] ValType.v128.text))
  | start {start n} : p.start = some start → p.funcs.length ≤ n → n ≤ start →
      Stops p c (.outOfRange start n)

theorem checkResults_abort {id : FuncId} {a : Abort} (h : p.checkResults id = .error a) :
    ∃ f, p.funcs[id]? = some f ∧ .v128 ∈ p.results f.type ∧
      a = .unsupported (.unsupportedType .transform [p.baseName id f] ValType.v128.text) := by
  unfold checkResults at h
  split at h
  next => cases h
  next f hf =>
    split at h
    next hvector =>
      cases h
      exact ⟨f, hf, hvector, rfl⟩
    next => cases h

theorem vet_ends {md : Metadata} (hstrategy : strategy ≠ .none)
    (hresults : ∀ id ∈ flagged, ∀ a, p.checkResults id = .error a → A a) :
    Ends A (p.vet md flagged strategy) fun _ => True := by
  unfold vet
  refine (Ends.lift (p.checkHandles md flagged)).bind fun handles _ => ?_
  rw [if_neg hstrategy]
  refine (Turns.forM fun id hid => ?_).bind fun _ _ => .pure trivial
  exact (Turns.attempt fun a ha => .of (hresults id hid a ha)).mono fun _ _ => trivial

/-- Once everything is checked, only a tag of host exceptions of another type is left to report. -/
theorem guarded_ends (hp : p.WellFormed) (hstrategy : strategy = .legacy ∨ strategy = .modern)
    (himported : ∀ id ∈ flagged, ∃ f, p.funcs[id]? = some f ∧ f.isImported = true)
    (hresults : ∀ id ∈ flagged, p.checkResults id = .ok ()) (handles : Handles) :
    Ends A (p.guarded flagged strategy handles) fun _ => True := by
  cases htag : p.existingTag with
  | ok found =>
    obtain ⟨r, hr⟩ := guarded_exists hp hstrategy htag himported hresults handles
    rw [hr]
    exact .pure trivial
  | error fault =>
    have hfault : p.guarded flagged strategy handles = .error (.fault fault) := by
      unfold guarded hostTag
      rw [htag]
      rfl
    rw [hfault]
    exact .fault fault

theorem checkHandles_table {md : Metadata} (h : p.checkHandles md flagged = .ok handles) :
    md.table = some handles.table := by
  obtain ⟨_, hjoined, h⟩ := of_bind h
  cases h
  have hmissing := (append_eq_nil_iff.mp (Fault.joined_eq_ok_iff.mp hjoined)).1
  cases htable : md.table <;> simp_all [Metadata.missing]

theorem exportedTable?_lt (hp : ∀ e ∈ p.exports, e.target.Within p) {name : String} {table : TableId}
    (h : p.exportedTable? name = some table) : table < p.tables.length := by
  obtain ⟨id, -, h⟩ := Option.bind_eq_some_iff.mp h
  obtain ⟨e, he, h⟩ := Option.bind_eq_some_iff.mp h
  have hwithin := hp e (mem_of_getElem? he)
  split at h
  next found htarget =>
    cases h
    rwa [htarget] at hwithin
  next => cases h

theorem detectAmong_cases {found : Strategy} {fs : List Function}
    (h : Strategy.detectAmong found fs = .ok strategy) :
    strategy = found ∨ strategy = .legacy ∨ strategy = .modern := by
  induction fs generalizing found with
  | nil =>
    cases h
    exact .inl rfl
  | cons f fs ih =>
    unfold Strategy.detectAmong at h
    split at h
    next => exact ih h
    next =>
      obtain ⟨visits, -, h⟩ := of_bind h
      dsimp only at h
      split at h
      next =>
        cases h
        exact .inr (.inr rfl)
      next =>
        split at h
        next => exact .inr ((ih h).elim .inl id)
        next => exact ih h

theorem chooseStrategy_ends (hp : p.WellFormed) {asked : Strategy}
    (hasked : asked = .none ∨ asked = .legacy ∨ asked = .modern) :
    Ends A (p.chooseStrategy asked) fun strategy => strategy = .legacy ∨ strategy = .modern := by
  unfold chooseStrategy
  split
  next hne => exact .pure (hasked.resolve_left hne)
  next =>
    obtain ⟨found, hfound, -⟩ := Strategy.detectAmong_eq_ok hp.walkable .none
    refine (Turns.liftAbort hfound).bind fun strategy hstrategy => ?_
    subst hstrategy
    split
    next => exact Ends.fault _
    next hne => exact .pure ((detectAmong_cases hfound).resolve_left hne)

/-- Nothing but what `Stops` lists keeps the pass from an outcome. -/
theorem ReadFrom.guardImports_ends (hr : ReadFrom m p q s tables exports) {c : Config}
    (hselected : p.selected c ≠ []) (hstrategy : strategy = .legacy ∨ strategy = .modern) :
    Ends (p.Stops c) (p.guardImports (some (p.metadata c)) (p.bind c.matcher).2 strategy)
      fun _ => True := by
  have hne : strategy ≠ .none := by
    rcases hstrategy with rfl | rfl <;> decide
  have hvet : Ends (p.Stops c) (p.vet (p.metadata c) (p.selected c) strategy) fun _ => True := by
    refine vet_ends hne fun id hid a ha => ?_
    obtain ⟨f, hf, hvector, rfl⟩ := checkResults_abort ha
    exact .vector hid hf hvector
  rw [guardImports_eq strategy hselected]
  refine Turns.bind ⟨fun _ h => h, hvet.failure⟩ fun handles hok => ?_
  obtain ⟨hhandles, -, hresults⟩ := vet_eq_ok hok
  rw [map_eq_pure_bind]
  refine (guarded_ends hr.wellFormed hstrategy (fun id hid => checkHandles_eq_ok hhandles hid)
    hresults handles).bind fun _ _ => .pure trivial

/-- Nor does anything else keep the whole transformation from its end. -/
theorem ReadFrom.transform_ends (hr : ReadFrom m p q s tables exports) {c : Config}
    (hc : c.strategy = .none ∨ c.strategy = .legacy ∨ c.strategy = .modern) :
    Ends (p.Stops c) (p.transform c) fun _ => True := by
  have hselected : (p.bind c.matcher).1.flagged (p.bind c.matcher).2 = p.selected c := rfl
  unfold transform
  simp only [hselected]
  split
  next => exact .pure trivial
  next hsome =>
    refine (chooseStrategy_ends hr.wellFormed hc).bind fun strategy hstrategy => ?_
    refine Turns.bind ⟨fun _ h => h, (hr.guardImports_ends hsome hstrategy).failure⟩ fun o ho => ?_
    obtain ⟨tag, handles, new, types, more, -, -, hhandles, hrewrapped⟩ := hr.rewrapped hsome ho
    have htable := exportedTable?_lt hr.closed.exports (checkHandles_table hhandles)
    have hemit := (hrewrapped.closed hr htable).emit_ends
    refine Turns.bind (P := fun _ => True) ⟨fun _ _ => trivial, fun e he a ha => ?_⟩
      fun _ _ => .pure trivial
    obtain ⟨start, hstart, hge, rfl⟩ := hemit.failure e he a ha
    have hsame : o.program.start = p.start := by rw [hrewrapped.altered.carried]
    exact .start (hsame ▸ hstart) (hrewrapped.altered.funcs_length ▸ Nat.le_add_right _ _) hge

end Program

/-- A module that was read can be written, or what is wrong with it is reported, unless it starts with
a function that is not there. A transformation may stop there too, and at selected imports that give
vectors, and nowhere else. -/
theorem stops_only (data : Bytes) :
    (∀ p a, Program.parse data = .ok p → (p.emit = .error (.abort a) ↔ p.StartsOutside a ∧
      ∀ e ∈ p.elements, ∀ func ∈ e.funcs, func.toNat < p.funcs.length)) ∧
    ∀ (c : Config) a, (c.strategy = .none ∨ c.strategy = .legacy ∨ c.strategy = .modern) →
      transform data c = .error (.abort a) → ∃ p, Program.parse data = .ok p ∧ p.Stops c a := by
  constructor
  · intro p a hp
    obtain ⟨m, -, hm⟩ := Program.parse_eq_ok_iff.mp hp
    obtain ⟨q, s, tables, exports, hr⟩ := Program.ofModule_eq_ok hm
    exact hr.emit_eq_abort_iff
  · intro c a hc habort
    cases hp : Program.parse data with
    | error fault =>
      rw [transform, hp] at habort
      cases habort
    | ok p =>
      obtain ⟨m, -, hm⟩ := Program.parse_eq_ok_iff.mp hp
      obtain ⟨q, s, tables, exports, hr⟩ := Program.ofModule_eq_ok hm
      have hends : Ends (p.Stops c) (transform data c) fun _ => True := by
        rw [transform, hp]
        refine (hr.transform_ends hc).bind fun result _ => ?_
        cases result <;> exact .pure trivial
      exact ⟨p, rfl, hends.abort a habort⟩

/-- The position that a computation was stopped at, and how many there were. -/
def overrun? {α : Type} : Except Failure α → Option (Nat × Nat)
  | .error (.abort (.outOfRange index length)) => some (index, length)
  | _ => none

theorem eq_abort_of_overrun? {α : Type} {x : Except Failure α} {index length : Nat}
    (h : overrun? x = some (index, length)) : x = .error (.abort (.outOfRange index length)) := by
  unfold overrun? at h
  split at h
  next =>
    cases h
    rfl
  next => cases h

/-- The module `throwingCaller`, which is to start with the tenth of its four functions. -/
def strayingCaller : Bytes :=
  [0x00, 0x61, 0x73, 0x6D, 0x01, 0x00, 0x00, 0x00,
   0x01, 0x0C, 0x03, 0x60, 0x00, 0x00, 0x60, 0x01, 0x7F, 0x00, 0x60, 0x00, 0x01, 0x7F,
   0x02, 0x07, 0x01, 0x01, 0x65, 0x01, 0x66, 0x00, 0x00,
   0x03, 0x04, 0x03, 0x02, 0x01, 0x00,
   0x04, 0x04, 0x01, 0x6F, 0x00, 0x00,
   0x0D, 0x03, 0x01, 0x00, 0x00,
   0x07, 0x0D, 0x03, 0x01, 0x74, 0x01, 0x00, 0x01, 0x61, 0x00, 0x01, 0x01, 0x73, 0x00, 0x02,
   0x08, 0x01, 0x09,
   0x0A, 0x10, 0x03, 0x04, 0x00, 0x41, 0x00, 0x0B, 0x02, 0x00, 0x0B,
   0x06, 0x00, 0x10, 0x00, 0x08, 0x00, 0x0B]

theorem strayingCaller_stops : ∃ p, Program.parse strayingCaller = .ok p ∧
    p.emit = .error (.abort (.outOfRange 9 4)) ∧
    transform strayingCaller wrapEverything = .error (.abort (.outOfRange 9 5)) ∧
    p.Stops wrapEverything (.outOfRange 9 5) := by
  have hread : (Program.parse strayingCaller).toOption.any (fun p => p.start == some 9 &&
      (p.funcs.length == 4 && p.elements == [])) = true := by decide +kernel
  have hrun : overrun? (transform strayingCaller wrapEverything) = some (9, 5) := by decide +kernel
  obtain ⟨p, hp, hfacts⟩ := any_toOption_iff.mp hread
  simp only [Bool.and_eq_true, beq_iff_eq] at hfacts
  obtain ⟨hstart, hfuncs, helements⟩ := hfacts
  obtain ⟨hemit, htransform⟩ := stops_only strayingCaller
  have habort := eq_abort_of_overrun? hrun
  obtain ⟨p', hp', hstops⟩ := htransform wrapEverything _ (.inr (.inr rfl)) habort
  cases hp.symm.trans hp'
  refine ⟨p, hp, (hemit p _ hp).mpr ⟨⟨9, hstart, by omega, by rw [hfuncs]⟩, ?_⟩, habort, hstops⟩
  rw [helements]
  exact fun e he => absurd he not_mem_nil

/-- A module without functions that is to start with the sixth. -/
def nothingToStart : Bytes :=
  [0x00, 0x61, 0x73, 0x6D, 0x01, 0x00, 0x00, 0x00, 0x08, 0x01, 0x05]

theorem nothingToStart_stops : ∃ p, Program.parse nothingToStart = .ok p ∧
    p.emit = .error (.abort (.outOfRange 5 0)) := by
  have hread : (Program.parse nothingToStart).toOption.any (fun p =>
      overrun? p.emit == some (5, 0)) = true := by decide +kernel
  obtain ⟨p, hp, hoverrun⟩ := any_toOption_iff.mp hread
  exact ⟨p, hp, eq_abort_of_overrun? (beq_iff_eq.mp hoverrun)⟩

end HostCatch
