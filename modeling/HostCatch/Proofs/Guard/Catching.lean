import HostCatch.Proofs.Guard.Alteration
import HostCatch.Proofs.Program.Execution

namespace HostCatch

open List

variable {σ ρ τ : Type}

/-- A call that does not return. -/
def Ending.Fails (ending : Ending ρ τ) : Prop :=
  ∀ values, ending ≠ .returned values

/-- A call that returns gives `arity` values. -/
def Ending.Fits (arity : Nat) (ending : Ending ρ τ) : Prop :=
  ∀ values, ending = .returned values → values.length = arity

namespace Env

/-- How the keeping of an exception with the value `x` ends. A slot is found for it, the table gets it
there and a function is told the slot; then there is a zero for each result. Whatever fails on the way
ends it. -/
inductive Kept (env : Env σ ρ τ) (h : Handles) (results : List ValType) (x : Datum ρ)
    (s : Store σ ρ) : Ending ρ τ → Store σ ρ → Prop
  | noSlot {ending s'} : env.call h.alloc [] s = (ending, s') → ending.Fails →
      Kept env h results x s ending s'
  | noRoom {slot s'} : env.call h.alloc [] s = (.returned [.i32 slot], s') →
      s'.put h.table slot x = none → Kept env h results x s .trapped s'
  | notStored {slot s₁ s₂ ending s'} : env.call h.alloc [] s = (.returned [.i32 slot], s₁) →
      s₁.put h.table slot x = some s₂ → env.call h.store [.i32 slot] s₂ = (ending, s') →
      ending.Fails → Kept env h results x s ending s'
  | stored {slot s₁ s₂ s' zeros} : env.call h.alloc [] s = (.returned [.i32 slot], s₁) →
      s₁.put h.table slot x = some s₂ → env.call h.store [.i32 slot] s₂ = (.returned [], s') →
      List.Forall₂ (fun type zero => Datum.zero? type = some zero) results zeros →
      Kept env h results x s (.returned zeros) s'

/-- How the call of an import ends when its exceptions with a tag are kept: like the import, unless it
throws such an exception. -/
inductive Relayed (env : Env σ ρ τ) (callee : FuncId) (tag : TagId) (h : Handles)
    (results : List ValType) (args : List (Datum ρ)) (s : Store σ ρ) :
    Ending ρ τ → Store σ ρ → Prop
  | returned {values s'} : env.call callee args s = (.returned values, s') →
      Relayed env callee tag h results args s (.returned values) s'
  | trapped {s'} : env.call callee args s = (.trapped, s') →
      Relayed env callee tag h results args s .trapped s'
  | uncaught {exn s'} : env.call callee args s = (.thrown exn, s') → exn.tag ≠ env.tag tag →
      Relayed env callee tag h results args s (.thrown exn) s'
  | caught {x s₁ ending s'} : env.call callee args s = (.thrown ⟨env.tag tag, [x]⟩, s₁) →
      env.Kept h results x s₁ ending s' →
      Relayed env callee tag h results args s ending s'

variable {env : Env σ ρ τ} {h : Handles} {results : List ValType} {x : Datum ρ}
  {callee : FuncId} {tag : TagId} {args : List (Datum ρ)} {s s₁ s₂ : Store σ ρ}
  {ending₁ ending₂ : Ending ρ τ}

theorem zeros_unique {zeros zeros' : List (Datum ρ)}
    (h₁ : Forall₂ (fun type zero => Datum.zero? type = some zero) results zeros)
    (h₂ : Forall₂ (fun type zero => Datum.zero? type = some zero) results zeros') :
    zeros = zeros' := by
  refine Relator.RightUnique.forall₂ ?_ h₁ h₂
  intro type zero zero' hzero hzero'
  exact Option.some.inj (hzero.symm.trans hzero')

theorem Kept.unique (h₁ : env.Kept h results x s ending₁ s₁)
    (h₂ : env.Kept h results x s ending₂ s₂) : ending₁ = ending₂ ∧ s₁ = s₂ := by
  cases h₁ <;> cases h₂ <;> grind [Ending.Fails, zeros_unique]

theorem Relayed.unique (h₁ : env.Relayed callee tag h results args s ending₁ s₁)
    (h₂ : env.Relayed callee tag h results args s ending₂ s₂) : ending₁ = ending₂ ∧ s₁ = s₂ := by
  cases h₁ <;> cases h₂ <;> grind [Kept.unique]

end Env

namespace Ending

variable {ending : Ending ρ τ} {arity : Nat}

theorem returned_or_fails (ending : Ending ρ τ) :
    (∃ values, ending = .returned values) ∨ ending.Fails := by
  cases ending with
  | returned values => exact .inl ⟨values, rfl⟩
  | thrown exn => exact .inr fun _ => by simp
  | trapped => exact .inr fun _ => by simp

theorem Fails.goesOn (h : ending.Fails) (below : List (Datum ρ)) :
    (ending.flow below).goesOn = false := by
  cases ending with
  | returned values => exact absurd rfl (h values)
  | thrown exn => rfl
  | trapped => rfl

theorem Fits.leave (h : ending.Fits arity) (label : SeqId) :
    (ending.flow []).leave label arity [] = some (ending.flow []) := by
  cases ending with
  | returned values => exact if_pos (h values rfl)
  | thrown exn => rfl
  | trapped => rfl

theorem Fits.ending? (h : ending.Fits arity) (entry : SeqId) :
    (ending.flow []).ending? entry arity = some ending := by
  cases ending with
  | returned values => exact if_pos (h values rfl)
  | thrown exn => rfl
  | trapped => rfl

end Ending

namespace Env

variable {env : Env σ ρ τ} {p : Program}
  {params : List ValType} {values : List (Datum ρ)} {store store' : Store σ ρ}

theorem Sound.one_i32 (hsound : env.Sound p) {func : FuncId}
    (hfunc : p.funcSignature? func = some ⟨params, [.i32]⟩) {args : List (Datum ρ)}
    (h : env.call func args store = (.returned values, store')) : ∃ slot, values = [.i32 slot] := by
  have htyped := hsound.returned hfunc h
  cases htyped with
  | cons hvalue hrest =>
    cases hvalue
    cases hrest
    exact ⟨_, rfl⟩

theorem Sound.no_values (hsound : env.Sound p) {func : FuncId}
    (hfunc : p.funcSignature? func = some ⟨params, []⟩) {args : List (Datum ρ)}
    (h : env.call func args store = (.returned values, store')) : values = [] :=
  forall₂_nil_right_iff.mp (hsound.returned hfunc h)

variable [DecidableEq τ] {q : Program} {b : Body} {arity : Nat}
  {nested : SeqId → Action σ ρ τ} {s : Call σ ρ}

theorem defaultValue_instr {type : ValType} {i : Instr} (h : defaultValue type = .ok i)
    (env : Env σ ρ τ) (p : Program) (b : Body) (arity : Nat) (nested : SeqId → Action σ ρ τ)
    (s : Call σ ρ) : ∃ zero, Datum.zero? type = some zero ∧ ∀ stack,
      env.instr p b arity nested i stack s = some (.next (stack ++ [zero]), s) := by
  cases type <;> cases h <;> exact ⟨_, rfl, fun _ => rfl⟩

/-- The defaults put a zero of each type on the stack. -/
theorem sequence_defaults {types : List ValType} {defaults : List Instr}
    (h : Forall₂ (fun type i => defaultValue type = .ok i) types defaults)
    (env : Env σ ρ τ) (p : Program) (b : Body) (arity : Nat) (nested : SeqId → Action σ ρ τ)
    (s : Call σ ρ) :
    ∃ zeros, Forall₂ (fun type zero => Datum.zero? type = some zero) types zeros ∧
      ∀ stack, sequence (env.instr p b arity nested) defaults stack s =
        some (.next (stack ++ zeros), s) := by
  induction h with
  | nil => exact ⟨[], .nil, fun stack => by simp [sequence]⟩
  | cons hfirst _ ih =>
    obtain ⟨zero, hzero, hnext⟩ := defaultValue_instr hfirst env p b arity nested s
    obtain ⟨zeros, hzeros, hrest⟩ := ih
    refine ⟨zero :: zeros, .cons hzero hzeros, fun stack => ?_⟩
    rw [sequence_next (hnext stack), hrest, append_assoc, singleton_append]

theorem sequence_gets {vars : List LocalId} {args : List (Datum ρ)}
    (h : Forall₂ (fun var value => s.vars var = some value) vars args) (is : List Instr)
    (stack : List (Datum ρ)) :
    sequence (env.instr p b arity nested) (vars.map .localGet ++ is) stack s =
      sequence (env.instr p b arity nested) is (stack ++ args) s := by
  induction h generalizing stack with
  | nil => simp
  | cons hvalue _ ih =>
    rw [map_cons, cons_append, sequence_next (instr_localGet hvalue), ih,
      append_assoc, singleton_append]

section Handler

variable {r : Recipe} {defaults : List Instr} (hsound : env.Sound p)
  (hgrown : ∀ {func type}, p.funcSignature? func = some type → q.funcSignature? func = some type)
  (hstore : p.funcSignature? r.handles.store = some ⟨[.i32], []⟩)
  (hdefaults : r.results.mapM defaultValue = .ok defaults)

include hsound hgrown hstore hdefaults

/-- The end of the handler: the slot is stored and zeros are given. -/
theorem sequence_stored {slot : Int32} (hslot : s.vars r.slot = some (.i32 slot)) :
    ∃ ending s', sequence (env.instr q b arity nested)
        (.localGet r.slot :: .call r.handles.store :: defaults) [] s = some (ending.flow [], s') ∧
      (ending.Fails ∧ env.call r.handles.store [.i32 slot] s.store = (ending, s'.store) ∨
        ∃ zeros, ending = .returned zeros ∧
          env.call r.handles.store [.i32 slot] s.store = (.returned [], s'.store) ∧
          Forall₂ (fun type zero => Datum.zero? type = some zero) r.results zeros) := by
  obtain ⟨ending, store, hcall⟩ : ∃ ending store,
    env.call r.handles.store [.i32 slot] s.store = (ending, store) := ⟨_, _, rfl⟩
  have htold : env.instr q b arity nested (.call r.handles.store) [.i32 slot] s =
    some (ending.flow [], { s with store }) := instr_call [] (hgrown hstore) rfl hcall
  rw [sequence_next (instr_localGet hslot)]
  rcases ending.returned_or_fails with ⟨values, rfl⟩ | hfails
  · cases hsound.no_values hstore hcall
    obtain ⟨zeros, hzeros, hrest⟩ := sequence_defaults (mapM_eq_ok_iff.mp hdefaults)
      env q b arity nested { s with store }
    exact ⟨.returned zeros, { s with store }, (sequence_next htold).trans (hrest []),
      .inr ⟨zeros, rfl, hcall, hzeros⟩⟩
  · exact ⟨ending, { s with store }, sequence_stop htold (hfails.goesOn []), .inl ⟨hfails, hcall⟩⟩

/-- The handler keeps what it finds on the stack. -/
theorem sequence_handler (halloc : p.funcSignature? r.handles.alloc = some ⟨[], [.i32]⟩)
    (hapart : r.slot ≠ r.exn) (hexn : (s.vars r.exn).isSome) (hslot : (s.vars r.slot).isSome)
    (x : Datum ρ) :
    ∃ ending s', env.Kept r.handles r.results x s.store ending s'.store ∧
      sequence (env.instr q b arity nested) (r.keeping ++ defaults) [x] s =
        some (ending.flow [], s') := by
  let s₁ : Call σ ρ := { s with vars := fun v => if v = r.exn then some x else s.vars v }
  have hset : env.instr q b arity nested (.localSet r.exn) [x] s = some (.next [], s₁) :=
    instr_localSet [] (Call.assign_eq hexn x)
  obtain ⟨ending, store₁, hcall⟩ : ∃ ending store,
    env.call r.handles.alloc [] s.store = (ending, store) := ⟨_, _, rfl⟩
  let s₂ : Call σ ρ := { s₁ with store := store₁ }
  have hfound : env.instr q b arity nested (.call r.handles.alloc) [] s₁ =
    some (ending.flow [], s₂) := instr_call [] (hgrown halloc) rfl hcall
  simp only [Recipe.keeping, cons_append, nil_append]
  rw [sequence_next hset]
  -- A call that fails ends the handler here; otherwise it gives the slot.
  rcases ending.returned_or_fails with ⟨values, rfl⟩ | hfails
  swap
  · exact ⟨ending, s₂, .noSlot hcall hfails, sequence_stop hfound (hfails.goesOn [])⟩
  obtain ⟨slot, rfl⟩ := hsound.one_i32 halloc hcall
  let s₃ : Call σ ρ :=
    { s₂ with vars := fun v => if v = r.slot then some (.i32 slot) else s₂.vars v }
  have hdeclared : (s₂.vars r.slot).isSome := by simpa [s₂, s₁, hapart] using hslot
  have htee : env.instr q b arity nested (.localTee r.slot) [.i32 slot] s₂ =
    some (.next [.i32 slot], s₃) := instr_localTee [] (Call.assign_eq hdeclared (.i32 slot))
  have hget : env.instr q b arity nested (.localGet r.exn) [.i32 slot] s₃ =
    some (.next [.i32 slot, x], s₃) := instr_localGet (by simp [s₃, s₂, s₁, hapart.symm])
  rw [sequence_next hfound]
  change ∃ ending s', _ ∧ sequence _ _ [.i32 slot] s₂ = _
  rw [sequence_next htee, sequence_next hget]
  cases hput : store₁.put r.handles.table slot x with
  | none =>
    have htrap : env.instr q b arity nested (.tableSet r.handles.table) [.i32 slot, x] s₃ =
      some (.trapped, s₃) := instr_tableSet_outside [] hput
    exact ⟨.trapped, s₃, .noRoom hcall hput, sequence_stop htrap rfl⟩
  | some store₂ =>
    let s₄ : Call σ ρ := { s₃ with store := store₂ }
    have hput₂ : env.instr q b arity nested (.tableSet r.handles.table) [.i32 slot, x] s₃ =
      some (.next [], s₄) := instr_tableSet [] hput
    rw [sequence_next hput₂]
    have hread : s₄.vars r.slot = some (.i32 slot) := by simp [s₄, s₃]
    obtain ⟨ending, s', hrun, ⟨hfails, htold⟩ | ⟨zeros, rfl, htold, hzeros⟩⟩ :=
      sequence_stored hsound hgrown hstore hdefaults hread
    · exact ⟨ending, s', .notStored hcall hput htold hfails, hrun⟩
    · exact ⟨.returned zeros, s', .stored hcall hput htold hzeros, hrun⟩

end Handler

section Modern

variable {r : Recipe} {type : TypeId} {defaults : List Instr} {bound : Nat} {s' : Call σ ρ}
  (hb : b.seqs = r.modernSeqs type defaults)

include hb

theorem modern_seqs : b.seqs[0]? = some ⟨.multi type, .block 1 :: (r.keeping ++ defaults)⟩ ∧
    b.seqs[1]? = some ⟨.single .externRef, [.tryTable 2 [⟨0x00, r.tag, 1⟩], .unreachable]⟩ ∧
    b.seqs[2]? = some ⟨.empty, r.forwarding ++ [.ret]⟩ := by
  rw [hb]
  exact ⟨rfl, rfl, rfl⟩

theorem modern_labels : q.seqSignature? b 1 = some ⟨[], [.externRef]⟩ ∧
    q.seqSignature? b 2 = some ⟨[], []⟩ := by
  obtain ⟨-, h₁, h₂⟩ := modern_seqs hb
  simp [Program.seqSignature?, h₁, h₂, Program.blockSignature?]

theorem modern_exits {flow : Flow ρ τ} (hflow : flow.Exits)
    (h : env.exec q b arity (bound + 1) 2 [] s = some (flow, s')) :
    env.exec q b arity (bound + 3) 0 [] s = some (flow, s') := by
  obtain ⟨hseq₀, hseq₁, -⟩ := modern_seqs hb
  obtain ⟨hlabel₁, hlabel₂⟩ := modern_labels (q := q) hb
  have hcaught : env.exec q b arity (bound + 2) 1 [] s = some (flow, s') := by
    rw [exec_succ hseq₁]
    exact sequence_stop (construct_exits [] hlabel₂ rfl h hflow) hflow.goesOn
  rw [exec_succ hseq₀]
  exact sequence_stop (construct_exits [] hlabel₁ rfl hcaught hflow) hflow.goesOn

theorem modern_uncaught {exn : Exn ρ τ} (hexn : exn.tag ≠ env.tag r.tag)
    (h : env.exec q b arity (bound + 1) 2 [] s = some (.thrown exn, s')) :
    env.exec q b arity (bound + 3) 0 [] s = some (.thrown exn, s') := by
  obtain ⟨hseq₀, hseq₁, -⟩ := modern_seqs hb
  obtain ⟨hlabel₁, hlabel₂⟩ := modern_labels (q := q) hb
  have hrescue : env.rescueByClause q b [⟨0x00, r.tag, 1⟩] exn [] s' = some (.thrown exn, s') := by
    simp [rescueByClause, catches, Wire.CatchClause.takesTag, hexn.symm, escape]
  have hcaught : env.exec q b arity (bound + 2) 1 [] s = some (.thrown exn, s') := by
    rw [exec_succ hseq₁]
    exact sequence_stop ((construct_thrown [] hlabel₂ rfl h).trans hrescue) rfl
  rw [exec_succ hseq₀]
  exact sequence_stop (construct_thrown [] hlabel₁ rfl hcaught) rfl

/-- An exception with the tag leaves its value to the code behind the block. -/
theorem modern_caught {x : Datum ρ}
    (h : env.exec q b arity (bound + 1) 2 [] s = some (.thrown ⟨env.tag r.tag, [x]⟩, s')) :
    env.exec q b arity (bound + 3) 0 [] s =
      sequence (env.instr q b arity (env.exec q b arity (bound + 2))) (r.keeping ++ defaults) [x]
        s' := by
  obtain ⟨hseq₀, hseq₁, -⟩ := modern_seqs hb
  obtain ⟨hlabel₁, hlabel₂⟩ := modern_labels (q := q) hb
  have hrescue : env.rescueByClause q b [⟨0x00, r.tag, 1⟩] ⟨env.tag r.tag, [x]⟩ [] s' =
      some (.branch 1 [x], s') := by
    simp [rescueByClause, catches, Wire.CatchClause.takesTag, handed, hlabel₁, pop]
  -- The branch goes to the label of the block, so what follows is not guarded any more.
  have hcaught : env.exec q b arity (bound + 2) 1 [] s = some (.branch 1 [x], s') := by
    rw [exec_succ hseq₁]
    exact sequence_stop ((construct_thrown [] hlabel₂ rfl h).trans hrescue) rfl
  rw [exec_succ hseq₀]
  exact sequence_next (construct_leave [] hlabel₁ rfl hcaught rfl rfl)

end Modern

section Legacy

variable {r : Recipe} {type handlerType : TypeId} {tried : BlockType} {defaults : List Instr}
  {bound : Nat} {s' : Call σ ρ}
  (hb : b.seqs = r.legacySeqs type handlerType tried defaults)
  (htried : q.blockSignature? tried = some ⟨[], r.results⟩)

include hb

theorem legacy_seqs : b.seqs[0]? = some ⟨.multi type, [.tryCatch 2 [⟨some r.tag, 1⟩] none]⟩ ∧
    b.seqs[1]? = some ⟨.multi handlerType, r.keeping ++ defaults⟩ ∧
    b.seqs[2]? = some ⟨tried, r.forwarding⟩ := by
  rw [hb]
  exact ⟨rfl, rfl, rfl⟩

include htried

theorem legacy_label : q.seqSignature? b 2 = some ⟨[], r.results⟩ := by
  obtain ⟨-, -, h₂⟩ := legacy_seqs hb
  simp [Program.seqSignature?, h₂, htried]

/-- What the guarded code returns is what the wrapper returns, and its trap ends the wrapper. -/
theorem legacy_through {ending : Ending ρ τ}
    (h : env.exec q b arity (bound + 1) 2 [] s = some (ending.flow [], s'))
    (hending : ending.Fits r.results.length) (hthrown : (ending.flow []).throws = false) :
    env.exec q b arity (bound + 2) 0 [] s = some (ending.flow [], s') := by
  rw [exec_succ (legacy_seqs hb).1, sequence_single]
  exact construct_leave [] (legacy_label hb htried) rfl h hthrown (hending.leave 2)

theorem legacy_uncaught {exn : Exn ρ τ} (hexn : exn.tag ≠ env.tag r.tag)
    (h : env.exec q b arity (bound + 1) 2 [] s = some (.thrown exn, s')) :
    env.exec q b arity (bound + 2) 0 [] s = some (.thrown exn, s') := by
  rw [exec_succ (legacy_seqs hb).1, sequence_single]
  refine (construct_thrown [] (legacy_label hb htried) rfl h).trans ?_
  simp [rescueByHandler, handles, hexn.symm, escape]

theorem legacy_caught {x : Datum ρ} {ending : Ending ρ τ} {s'' : Call σ ρ}
    (h : env.exec q b arity (bound + 1) 2 [] s = some (.thrown ⟨env.tag r.tag, [x]⟩, s'))
    (hending : ending.Fits r.results.length)
    (hhandler : env.exec q b arity (bound + 1) 1 [x] s' = some (ending.flow [], s'')) :
    env.exec q b arity (bound + 2) 0 [] s = some (ending.flow [], s'') := by
  rw [exec_succ (legacy_seqs hb).1, sequence_single]
  refine (construct_thrown [] (legacy_label hb htried) rfl h).trans ?_
  simp [rescueByHandler, handles, hhandler, hending.leave 1]

end Legacy

end Env

theorem BlockType.Describes.signature {q : Program} {results : List ValType} {t : BlockType}
    (h : t.Describes q.types results) : q.blockSignature? t = some ⟨[], results⟩ := by
  cases t with
  | empty =>
    cases h
    rfl
  | single result =>
    cases h
    rfl
  | multi type => exact h

/-- What a recipe refers to has the types that it relies on. -/
structure Recipe.Fitting (r : Recipe) (p : Program) (sig : Signature) : Prop where
  callee : p.funcSignature? r.callee = some sig
  params : r.params.length = sig.params.length
  results : r.results = sig.results
  alloc : p.funcSignature? r.handles.alloc = some ⟨[], [.i32]⟩
  store : p.funcSignature? r.handles.store = some ⟨[.i32], []⟩
  tag : p.tagSignature? r.tag = some ⟨[.externRef], []⟩

/-- The parameters of a wrapper have the arguments, and its other variables are there. -/
structure Recipe.Ready (r : Recipe) (s : Call σ ρ) (args : List (Datum ρ)) : Prop where
  params : List.Forall₂ (fun var value => s.vars var = some value) r.params args
  exn : (s.vars r.exn).isSome
  slot : (s.vars r.slot).isSome
  apart : r.slot ≠ r.exn

namespace Env

section Relaying

variable {env : Env σ ρ τ} {p q : Program} {r : Recipe} {sig : Signature} {args : List (Datum ρ)}
  {s : Call σ ρ}
  {store store' : Store σ ρ} {ending : Ending ρ τ}

theorem Kept.fits {h : Handles} {results : List ValType} {x : Datum ρ}
    (hkept : env.Kept h results x store ending store') : ending.Fits results.length := by
  intro values hvalues
  cases hkept with
  | noSlot _ hfails => exact absurd hvalues (hfails values)
  | noRoom => cases hvalues
  | notStored _ _ _ hfails => exact absurd hvalues (hfails values)
  | stored _ _ _ hzeros =>
    cases hvalues
    exact hzeros.length_eq.symm

/-- How an import can end. -/
inductive Ends (env : Env σ ρ τ) (tag : TagId) (arity : Nat) : Ending ρ τ → Prop
  | returned {values} : values.length = arity → Ends env tag arity (.returned values)
  | trapped : Ends env tag arity .trapped
  | uncaught {exn} : exn.tag ≠ env.tag tag → Ends env tag arity (.thrown exn)
  | caught (x) : Ends env tag arity (.thrown ⟨env.tag tag, [x]⟩)

theorem Sound.ends (hsound : env.Sound p) (hfit : r.Fitting p sig)
    (hcall : env.call r.callee args store = (ending, store')) :
    env.Ends r.tag r.results.length ending := by
  cases ending with
  | returned values =>
    rw [hfit.results]
    exact .returned (hsound.returned hfit.callee hcall).length_eq
  | trapped => exact .trapped
  | thrown exn =>
    by_cases htag : exn.tag = env.tag r.tag
    · have hpayload := hsound.thrown hfit.tag hcall htag
      obtain ⟨tag, payload⟩ := exn
      cases htag
      obtain ⟨x, rfl⟩ := length_eq_one_iff.mp hpayload.length_eq
      exact .caught x
    · exact .uncaught htag

variable [DecidableEq τ] {b : Body} {arity : Nat} {nested : SeqId → Action σ ρ τ}
  {defaults : List Instr}

theorem sequence_forwarding (hready : r.Ready s args) (is : List Instr) :
    sequence (env.instr q b arity nested) (r.forwarding ++ is) [] s =
      sequence (env.instr q b arity nested) (.call r.callee :: is) args s := by
  rw [Recipe.forwarding, append_assoc, sequence_gets hready.params]
  rfl

variable (hsound : env.Sound p)
  (hgrown : ∀ {func type}, p.funcSignature? func = some type → q.funcSignature? func = some type)
  (hfit : r.Fitting p sig) (hready : r.Ready s args)

include hgrown hfit hready

theorem instr_callee (hcall : env.call r.callee args s.store = (ending, store)) :
    env.instr q b arity nested (.call r.callee) args s =
      some (ending.flow [], { s with store }) := by
  refine instr_call [] (hgrown hfit.callee) ?_ hcall
  rw [← hready.params.length_eq, hfit.params]

variable (hdefaults : r.results.mapM defaultValue = .ok defaults)

include hsound hdefaults

theorem handler_kept (x : Datum ρ) :
    ∃ ending s', env.Kept r.handles r.results x store ending s'.store ∧
      sequence (env.instr q b arity nested) (r.keeping ++ defaults) [x] { s with store } =
        some (ending.flow [], s') :=
  sequence_handler (s := { s with store }) hsound hgrown hfit.store hdefaults hfit.alloc
    hready.apart hready.exn hready.slot x

/-- The modern wrapper ends like its import, unless that throws with the tag. -/
theorem modern_relayed {type : TypeId} (hb : b.seqs = r.modernSeqs type defaults) :
    ∃ flow ending s', env.exec q b r.results.length (b.seqs.length + 1) 0 [] s = some (flow, s') ∧
      flow.ending? 0 r.results.length = some ending ∧
      env.Relayed r.callee r.tag r.handles r.results args s.store ending s'.store := by
  obtain ⟨ending, store, hcall⟩ : ∃ ending store,
    env.call r.callee args s.store = (ending, store) := ⟨_, _, rfl⟩
  have hlength : b.seqs.length + 1 = 4 := by rw [hb, Recipe.modernSeqs, length_cons,
    length_cons, length_singleton]
  rw [hlength]
  have hguarded : env.exec q b r.results.length 2 2 [] s = _ :=
    (exec_succ (modern_seqs hb).2.2).trans (sequence_forwarding hready [.ret])
  cases hsound.ends hfit hcall with
  | @returned values hvalues =>
    rw [sequence_next (instr_callee hgrown hfit hready hcall)] at hguarded
    have hret := hguarded.trans (sequence_stop (instr_ret [] hvalues) rfl)
    exact ⟨_, _, _, modern_exits hb (.ret values) hret, rfl, .returned hcall⟩
  | trapped =>
    have htrap := hguarded.trans (sequence_stop (instr_callee hgrown hfit hready hcall) rfl)
    exact ⟨_, _, _, modern_exits hb .trapped htrap, rfl, .trapped hcall⟩
  | uncaught htag =>
    have hthrown := hguarded.trans (sequence_stop (instr_callee hgrown hfit hready hcall) rfl)
    exact ⟨_, _, _, modern_uncaught hb htag hthrown, rfl, .uncaught hcall htag⟩
  | caught x =>
    have hthrown := hguarded.trans (sequence_stop (instr_callee hgrown hfit hready hcall) rfl)
    obtain ⟨ending, s', hkept, hrun⟩ := handler_kept hsound hgrown hfit hready hdefaults x
    exact ⟨_, ending, s', (modern_caught hb hthrown).trans hrun, hkept.fits.ending? 0,
      .caught hcall hkept⟩

theorem legacy_relayed {type handlerType : TypeId} {tried : BlockType}
    (hb : b.seqs = r.legacySeqs type handlerType tried defaults)
    (htried : q.blockSignature? tried = some ⟨[], r.results⟩) :
    ∃ flow ending s', env.exec q b r.results.length (b.seqs.length + 1) 0 [] s = some (flow, s') ∧
      flow.ending? 0 r.results.length = some ending ∧
      env.Relayed r.callee r.tag r.handles r.results args s.store ending s'.store := by
  obtain ⟨ending, store, hcall⟩ : ∃ ending store,
    env.call r.callee args s.store = (ending, store) := ⟨_, _, rfl⟩
  have hlength : b.seqs.length + 1 = 4 := by rw [hb, Recipe.legacySeqs, length_cons,
    length_cons, length_singleton]
  rw [hlength]
  have hguarded : env.exec q b r.results.length 3 2 [] s =
      some (ending.flow [], { s with store }) := by
    rw [exec_succ (legacy_seqs hb).2.2, ← append_nil r.forwarding,
      sequence_forwarding hready, sequence_single]
    exact instr_callee hgrown hfit hready hcall
  cases hsound.ends hfit hcall with
  | @returned values hvalues =>
    have hfits : (Ending.returned values : Ending ρ τ).Fits r.results.length := by
      rintro _ ⟨⟩
      exact hvalues
    exact ⟨_, _, _, legacy_through hb htried hguarded hfits rfl, hfits.ending? 0, .returned hcall⟩
  | trapped =>
    have hfits : (Ending.trapped : Ending ρ τ).Fits r.results.length := by
      intro values hvalues
      cases hvalues
    exact ⟨_, _, _, legacy_through hb htried hguarded hfits rfl, rfl, .trapped hcall⟩
  | uncaught htag =>
    exact ⟨_, _, _, legacy_uncaught hb htried htag hguarded, rfl, .uncaught hcall htag⟩
  | caught x =>
    obtain ⟨ending, s', hkept, hrun⟩ := handler_kept hsound hgrown hfit hready hdefaults x
    have hhandler : env.exec q b r.results.length 3 1 [x] { s with store } =
      some (ending.flow [], s') := (exec_succ (legacy_seqs hb).2.1).trans hrun
    exact ⟨_, ending, s', legacy_caught hb htried hguarded hkept.fits hhandler,
      hkept.fits.ending? 0, .caught hcall hkept⟩

end Relaying

end Env

namespace Program

variable {p : Program} {id : FuncId} {f : Function} {sig : Signature} {r : Recipe}
  {more : List Signature} {seqs : List Seq}

theorem funcSignature?_withWrapper {func : FuncId} {type : Signature}
    (h : p.funcSignature? func = some type) :
    (p.withWrapper id f sig r more seqs).funcSignature? func = some type := by
  obtain ⟨g, hg, htype⟩ := Option.bind_eq_some_iff.mp h
  refine Option.bind_eq_some_iff.mpr ⟨g, ?_, ?_⟩
  · exact getElem?_append_some _ hg
  · exact getElem?_append_some _ htype

theorem enter_ready (tag : TagId) (handles : Handles) {args : List (Datum ρ)}
    (hargs : args.length = sig.params.length) (store : Store σ ρ) {q : Program}
    (hq : q.locals = p.locals ++ sig.params ++ [.i32, .externRef]) {b : Body}
    (hparams : b.params = (p.recipe id sig tag handles).params)
    (hlocals : b.locals = [(p.recipe id sig tag handles).exn, (p.recipe id sig tag handles).slot]) :
    (p.recipe id sig tag handles).Ready ⟨q.enter b args, store⟩ args := by
  have hfresh := p.recipe_fresh id sig tag handles
  have hslot : q.enter b args (p.recipe id sig tag handles).slot = Datum.zero? .i32 := by
    refine enter_local (hparams ▸ hfresh.slot) (by simp [hlocals]) ?_
    simp [hq, recipe]
  have hexn : q.enter b args (p.recipe id sig tag handles).exn = Datum.zero? .externRef := by
    refine enter_local (hparams ▸ hfresh.exn) (by simp [hlocals]) ?_
    simp [hq, recipe, Nat.add_assoc]
  refine ⟨?_, Option.isSome_of_eq_some hexn, Option.isSome_of_eq_some hslot, hfresh.apart⟩
  rw [← hparams]
  refine enter_params ?_ ?_
  · simp [hparams, recipe, nodup_range']
  · simp [hparams, recipe, hargs]

end Program

namespace Env

variable [DecidableEq τ] {env : Env σ ρ τ} {p : Program} {id : FuncId} {f : Function}
  {sig : Signature} {tag : TagId} {handles : Handles} {args : List (Datum ρ)}

/-- A wrapper relays its import, however it is made. -/
theorem invoke_relayed (hsound : env.Sound p) (hsig : p.types[f.type]? = some sig)
    (hfit : (p.recipe id sig tag handles).Fitting p sig)
    {defaults : List Instr} (hdefaults : sig.results.mapM defaultValue = .ok defaults)
    {strategy : Strategy} {more : List Signature} {seqs : List Seq}
    (hmakes : Program.Makes p.types f.type (p.recipe id sig tag handles) defaults strategy more seqs)
    (hargs : args.length = sig.params.length) (s : Store σ ρ) :
    ∃ ending s', env.invoke (p.withWrapper id f sig (p.recipe id sig tag handles) more seqs)
        p.funcs.length args s = some (ending, s') ∧
      env.Relayed id tag handles sig.results args s ending s' := by
  let r := p.recipe id sig tag handles
  let q := p.withWrapper id f sig r more seqs
  let b : Body := ⟨r.params, [r.exn, r.slot], seqs, 0⟩
  have hwrapper : q.funcs[p.funcs.length]? = some (p.wrapper id f r seqs) :=
    getElem?_concat_length
  have htype : q.types[(p.wrapper id f r seqs).type]? = some sig :=
    getElem?_append_some _ hsig
  have hready : r.Ready ⟨q.enter b args, s⟩ args :=
    Program.enter_ready tag handles hargs s rfl rfl rfl
  have hparams : args.length = b.params.length := by simp [b, r, Program.recipe, hargs]
  obtain ⟨flow, ending, s', hexec, hending, hrelayed⟩ : ∃ flow ending s',
      env.exec q b r.results.length (b.seqs.length + 1) 0 [] ⟨q.enter b args, s⟩ =
        some (flow, s') ∧ flow.ending? 0 r.results.length = some ending ∧
      env.Relayed r.callee r.tag r.handles r.results args s ending s'.store := by
    rcases hmakes.describes with hseqs | ⟨handlerType, tried, hseqs, htried⟩
    · exact modern_relayed hsound Program.funcSignature?_withWrapper hfit hready hdefaults hseqs
    · exact legacy_relayed hsound Program.funcSignature?_withWrapper hfit hready hdefaults hseqs
        (BlockType.Describes.signature htried)
  exact ⟨ending, s'.store, invoke_eq hwrapper htype rfl hparams hexec hending, hrelayed⟩

/-- Both kinds of wrapper of an import are made, and a call of either ends like the other, as
`Relayed` says. The functions that are called may do anything with the store, as long as their
results have the right types. -/
theorem wrappers_relay (hsound : env.Sound p) (hf : p.funcs[id]? = some f)
    (hsig : p.types[f.type]? = some sig) (hknown : ∀ v ∈ sig.results, v.IsKnown)
    (hvector : .v128 ∉ sig.results)
    (halloc : p.funcSignature? handles.alloc = some ⟨[], [.i32]⟩)
    (hstore : p.funcSignature? handles.store = some ⟨[.i32], []⟩)
    (htag : p.tagSignature? tag = some ⟨[.externRef], []⟩)
    (hargs : args.length = sig.params.length) (s : Store σ ρ) :
    ∃ w q w' q' ending s', p.addWrapper .modern id f tag handles = .ok (w, q) ∧
      p.addWrapper .legacy id f tag handles = .ok (w', q') ∧
      env.invoke q w args s = some (ending, s') ∧ env.invoke q' w' args s = some (ending, s') ∧
      env.Relayed id tag handles sig.results args s ending s' := by
  have hfit : (p.recipe id sig tag handles).Fitting p sig := {
    callee := by simp [Program.recipe, Program.funcSignature?, hf, hsig]
    params := by simp [Program.recipe]
    results := rfl
    alloc := halloc
    store := hstore
    tag := htag }
  obtain ⟨defaults, hdefaults⟩ := defaults_exist hknown hvector
  obtain ⟨more, seqs, hmodern⟩ := Program.Makes.exists p.types f.type
    (p.recipe id sig tag handles) defaults (.inr rfl : Strategy.modern = .legacy ∨ _)
  obtain ⟨more', seqs', hlegacy⟩ := Program.Makes.exists p.types f.type
    (p.recipe id sig tag handles) defaults (.inl rfl : Strategy.legacy = .legacy ∨ _)
  obtain ⟨ending, s', hinvoke, hrelayed⟩ :=
    invoke_relayed hsound hsig hfit hdefaults hmodern hargs s
  obtain ⟨ending', s'', hinvoke', hrelayed'⟩ :=
    invoke_relayed hsound hsig hfit hdefaults hlegacy hargs s
  -- The two calls were looked at apart; that they end alike is because only one end is possible.
  obtain ⟨rfl, rfl⟩ := hrelayed.unique hrelayed'
  exact ⟨_, _, _, _, ending, s', Program.addWrapper_eq hsig hdefaults hmodern,
    Program.addWrapper_eq hsig hdefaults hlegacy, hinvoke, hinvoke', hrelayed⟩

end Env

/-- An import with two results, a function that finds a slot and one that is told it. -/
def hosted : Program where
  types := [⟨[.i64], [.i32, .f64]⟩, ⟨[], [.i32]⟩, ⟨[.i32], []⟩, ⟨[.externRef], []⟩]
  funcs := [⟨[], 0, .imported 0⟩, ⟨[], 1, .imported 1⟩, ⟨[], 2, .imported 2⟩]
  tables := [⟨.host, Program.tableLimits 2 none, [], none⟩]
  tags := [⟨3, 0, some 3⟩]
  imports := [⟨"m", "run", .func 0⟩, ⟨"m", "alloc", .func 1⟩, ⟨"m", "store", .func 2⟩,
    ⟨"m", "tag", .tag 0⟩]

/-- The import throws, and the calls are recorded. -/
def throwing : Env (List FuncId) Unit Unit where
  call func _ s :=
    let s := { s with rest := s.rest ++ [func] }
    match func with
    | 0 => (.thrown ⟨(), [.ref ()]⟩, s)
    | 1 => (.returned [.i32 1], s)
    | _ => (.returned [], s)
  tag _ := ()

theorem throwing_sound : throwing.Sound hosted where
  returned {func type args s values s'} hfunc hcall := by
    match func with
    | 0 => cases hcall
    | 1 =>
      cases hfunc
      cases hcall
      exact .cons (.i32 1) .nil
    | 2 =>
      cases hfunc
      cases hcall
      exact .nil
    | _ + 3 => cases hfunc
  thrown {func args s exn s' tag type} htag hcall _ := by
    match func, tag with
    | 0, 0 =>
      cases htag
      cases hcall
      exact .cons (.ref () .host) .nil
    | 0, _ + 1 => cases htag
    | 1, _ => cases hcall
    | _ + 2, _ => cases hcall

def quiet : Store (List FuncId) Unit :=
  ⟨fun _ => [.null .host, .null .host], []⟩

theorem throwing_relayed : throwing.Sound hosted ∧ ∃ w q w' q' s',
    hosted.addWrapper .modern 0 ⟨[], 0, .imported 0⟩ 0 ⟨0, 1, 2⟩ = .ok (w, q) ∧
      hosted.addWrapper .legacy 0 ⟨[], 0, .imported 0⟩ 0 ⟨0, 1, 2⟩ = .ok (w', q') ∧
      throwing.invoke q w [.i64 5] quiet = some (.returned [.i32 0, .f64 0], s') ∧
      throwing.invoke q' w' [.i64 5] quiet = some (.returned [.i32 0, .f64 0], s') ∧
      s'.tables 0 = [.null .host, .ref ()] ∧ s'.rest = [0, 1, 2] := by
  have hf : hosted.funcs[0]? = some ⟨[], 0, .imported 0⟩ := rfl
  have hsig : hosted.types[0]? = some ⟨[.i64], [.i32, .f64]⟩ := rfl
  have halloc : hosted.funcSignature? (Handles.mk 0 1 2).alloc = some ⟨[], [.i32]⟩ := rfl
  have htag : hosted.tagSignature? 0 = some ⟨[.externRef], []⟩ := rfl
  have hargs : ([.i64 5] : List (Datum Unit)).length = 1 := rfl
  refine ⟨throwing_sound, ?_⟩
  obtain ⟨w, q, w', q', ending, s', hmodern, hlegacy, hinvoke, hinvoke', hrelayed⟩ :=
    Env.wrappers_relay throwing_sound hf hsig (by simp [ValType.IsKnown]) (by simp) halloc rfl htag
      hargs quiet
  obtain ⟨rfl, rfl⟩ := hrelayed.unique
    (.caught rfl (.stored rfl rfl rfl (.cons rfl (.cons rfl .nil))))
  exact ⟨w, q, w', q', _, hmodern, hlegacy, hinvoke, hinvoke', by decide, by decide⟩

end HostCatch
