import HostCatch.Program.Basic
import HostCatch.Proofs.Success

namespace HostCatch

open List

/-- A value at run time. Except for null, references are to things of any sort. -/
inductive Datum (ρ : Type) where
  | i32 (value : Int32)
  | i64 (value : Int64)
  | f32 (bits : UInt32)
  | f64 (bits : UInt64)
  | v128 (bits : BitVec 128)
  | null (type : RefType)
  | ref (target : ρ)
  deriving DecidableEq

namespace Datum

variable {ρ : Type}

/-- The value that variables of a type have at first. -/
def zero? : ValType → Option (Datum ρ)
  | .i32 => some (.i32 0)
  | .i64 => some (.i64 0)
  | .f32 => some (.f32 0)
  | .f64 => some (.f64 0)
  | .v128 => some (.v128 0)
  | .ref type => some (.null type)
  | .unknown _ => none

def ofValue? : Value → Option (Datum ρ)
  | .i32 value => some (.i32 value)
  | .i64 value => some (.i64 value)
  | .f32 bits => some (.f32 bits)
  | .f64 bits => some (.f64 bits)
  | .other _ => none

inductive HasType : Datum ρ → ValType → Prop
  | i32 (value) : HasType (.i32 value) .i32
  | i64 (value) : HasType (.i64 value) .i64
  | f32 (bits) : HasType (.f32 bits) .f32
  | f64 (bits) : HasType (.f64 bits) .f64
  | v128 (bits) : HasType (.v128 bits) .v128
  | null {type} (found) : type.nullable = true → HasType (.null found) (.ref type)
  | ref (target type) : HasType (.ref target) (.ref type)

end Datum

/-- What outlasts a call: the contents of the tables, and a state that only functions look into. -/
structure Store (σ ρ : Type) where
  tables : TableId → List (Datum ρ)
  rest : σ

/-- Puts a value into a slot of a table, unless the table is too short. -/
def Store.put {σ ρ : Type} (s : Store σ ρ) (table : TableId) (slot : Int32) (value : Datum ρ) :
    Option (Store σ ρ) :=
  let place := slot.toUInt32.toNat
  if place < (s.tables table).length then
    some { s with tables := fun t =>
      if t = table then (s.tables table).set place value else s.tables t }
  else none

/-- An exception carries a tag and values. -/
structure Exn (ρ τ : Type) where
  tag : τ
  payload : List (Datum ρ)
  deriving DecidableEq

/-- How a call ends. -/
inductive Ending (ρ τ : Type) where
  | returned (values : List (Datum ρ))
  | thrown (exn : Exn ρ τ)
  | trapped
  deriving DecidableEq

/-- What the functions do that are called, and which tags the tags of a program are. -/
structure Env (σ ρ τ : Type) where
  call : FuncId → List (Datum ρ) → Store σ ρ → Ending ρ τ × Store σ ρ
  tag : TagId → τ

/-- How a sequence of instructions ends. -/
inductive Flow (ρ τ : Type) where
  | next (stack : List (Datum ρ))
  | branch (label : SeqId) (values : List (Datum ρ))
  | ret (values : List (Datum ρ))
  | thrown (exn : Exn ρ τ)
  | trapped
  deriving DecidableEq

/-- A call in progress: its variables, and what outlasts it. -/
structure Call (σ ρ : Type) where
  vars : LocalId → Option (Datum ρ)
  store : Store σ ρ

/-- What code makes of a stack of operands in a call, unless it is not valid. -/
abbrev Action (σ ρ τ : Type) : Type :=
  List (Datum ρ) → Call σ ρ → Option (Flow ρ τ × Call σ ρ)

/-- A stack without its topmost values, and these. The top is the end. -/
def pop {α : Type} (n : Nat) (stack : List α) : Option (List α × List α) :=
  if n ≤ stack.length then some (stack.splitAt (stack.length - n)) else none

theorem pop_append {α : Type} {n : Nat} {top : List α} (below : List α) (h : top.length = n) :
    pop n (below ++ top) = some (below, top) := by
  subst h
  rw [pop, if_pos (by simp), length_append, Nat.add_sub_cancel, splitAt_eq, take_left, drop_left]

/-- What a call leaves on the operands below its arguments. -/
def Ending.flow {ρ τ : Type} (below : List (Datum ρ)) : Ending ρ τ → Flow ρ τ
  | returned values => .next (below ++ values)
  | thrown exn => .thrown exn
  | trapped => .trapped

namespace Flow

variable {ρ τ : Type}

/-- How nested code leaves its construct: what it gives, as many values as the construct has results,
goes on top of the operands below it, also by a branch to its label. -/
def leave (label : SeqId) (arity : Nat) (below : List (Datum ρ)) : Flow ρ τ → Option (Flow ρ τ)
  | next values => if values.length = arity then some (.next (below ++ values)) else none
  | branch target values =>
    if target = label then some (.next (below ++ values)) else some (.branch target values)
  | flow => some flow

/-- How the code of a function leaves it. -/
def ending? (entry : SeqId) (arity : Nat) : Flow ρ τ → Option (Ending ρ τ)
  | next values => if values.length = arity then some (.returned values) else none
  | branch target values => if target = entry then some (.returned values) else none
  | ret values => some (.returned values)
  | thrown exn => some (.thrown exn)
  | trapped => some .trapped

/-- Whether the instructions that follow are run. -/
def goesOn : Flow ρ τ → Bool
  | next _ => true
  | _ => false

def throws : Flow ρ τ → Bool
  | thrown _ => true
  | _ => false

/-- The ends of a function that no construct holds up. -/
inductive Exits : Flow ρ τ → Prop
  | ret (values) : Exits (.ret values)
  | trapped : Exits .trapped

theorem Exits.goesOn {flow : Flow ρ τ} (h : flow.Exits) : flow.goesOn = false := by
  cases h <;> rfl

end Flow

namespace Program

/-- The types of what a block takes and gives. -/
def blockSignature? (p : Program) : BlockType → Option Signature
  | .empty => some ⟨[], []⟩
  | .single result => some ⟨[], [result]⟩
  | .multi type => p.types[type]?

def seqSignature? (p : Program) (b : Body) (id : SeqId) : Option Signature := do
  let s ← b.seqs[id]?
  p.blockSignature? s.type

def funcSignature? (p : Program) (func : FuncId) : Option Signature := do
  let f ← p.funcs[func]?
  p.types[f.type]?

def tagSignature? (p : Program) (tag : TagId) : Option Signature := do
  let t ← p.tags[tag]?
  p.types[t.type]?

/-- The variables of a call: the parameters have the arguments, the others are zero. -/
def enter {ρ : Type} (p : Program) (b : Body) (args : List (Datum ρ)) (var : LocalId) :
    Option (Datum ρ) :=
  if var ∈ b.params then args[b.params.idxOf var]?
  else if var ∈ b.locals then p.locals[var]?.bind Datum.zero?
  else none

section Enter

variable {ρ : Type} {p : Program} {b : Body} {args : List (Datum ρ)}

theorem enter_params (hnodup : b.params.Nodup) (hargs : args.length = b.params.length) :
    Forall₂ (fun var value => p.enter b args var = some value) b.params args := by
  refine forall₂_iff_get.mpr ⟨hargs.symm, fun n hn hn' => ?_⟩
  have hplace : b.params.idxOf (b.params.get ⟨n, hn⟩) = n := hnodup.idxOf_getElem n hn
  rw [enter, if_pos (get_mem _ _), hplace, getElem?_eq_getElem hn']
  rfl

theorem enter_local {var : LocalId} {type : ValType} (hvar : var ∉ b.params)
    (hlocal : var ∈ b.locals) (htype : p.locals[var]? = some type) :
    p.enter b args var = Datum.zero? type := by
  rw [enter, if_neg hvar, if_pos hlocal, htype, Option.bind_some]

end Enter

end Program

namespace Call

variable {σ ρ : Type}

/-- Gives a value to a variable that there is. -/
def assign (s : Call σ ρ) (var : LocalId) (value : Datum ρ) : Option (Call σ ρ) :=
  if (s.vars var).isSome then
    some { s with vars := fun v => if v = var then some value else s.vars v }
  else none

theorem assign_eq {s : Call σ ρ} {var : LocalId} (h : (s.vars var).isSome) (value : Datum ρ) :
    s.assign var value =
      some { s with vars := fun v => if v = var then some value else s.vars v } :=
  if_pos h

end Call

namespace Env

variable {σ ρ τ : Type} [DecidableEq τ] (env : Env σ ρ τ) (p : Program) (b : Body) (arity : Nat)

/-- An instruction without nested code, in a function that returns `arity` values. -/
def plain (i : Instr) : Action σ ρ τ := fun stack s =>
  match i with
  | .localGet var => do
    let value ← s.vars var
    pure (.next (stack ++ [value]), s)
  | .localSet var => do
    match ← pop 1 stack with
    | (below, [value]) => pure (.next below, ← s.assign var value)
    | _ => none
  | .localTee var => do
    match ← pop 1 stack with
    | (_, [value]) => pure (.next stack, ← s.assign var value)
    | _ => none
  | .call func => do
    let type ← p.funcSignature? func
    let (below, args) ← pop type.params.length stack
    let (ending, store) := env.call func args s.store
    pure (ending.flow below, { s with store })
  | .tableSet table => do
    match ← pop 2 stack with
    | (below, [.i32 slot, value]) =>
      match s.store.put table slot value with
      | some store => pure (.next below, { s with store })
      | none => pure (.trapped, s)
    | _ => none
  | .const value => do
    let value ← Datum.ofValue? value
    pure (.next (stack ++ [value]), s)
  | .refNull type => pure (.next (stack ++ [.null type]), s)
  | .ret => do
    let (_, values) ← pop arity stack
    pure (.ret values, s)
  | .unreachable => pure (.trapped, s)
  | _ => none

/-- Whether a clause of a `try_table` catches an exception. -/
def catches (exn : Exn ρ τ) (c : Clause) : Bool :=
  !Wire.CatchClause.takesTag c.kind || env.tag c.tag = exn.tag

/-- Whether a handler of a `try` handles an exception. -/
def handles (exn : Exn ρ τ) (h : Handler) : Bool :=
  h.tag.all fun tag => env.tag tag = exn.tag

/-- The values that a clause hands to its label. An exception as such is no value here. -/
def handed (exn : Exn ρ τ) (c : Clause) : Option (List (Datum ρ)) :=
  if c.kind = 0x00 then some exn.payload
  else if c.kind = 0x02 then some []
  else none

/-- A construct around a sequence, which takes its operands from the stack and leaves its results
there; `rescue` is what becomes of an exception. -/
def construct (nested : SeqId → Action σ ρ τ) (rescue : Signature → Exn ρ τ → Action σ ρ τ)
    (id : SeqId) : Action σ ρ τ := fun stack s => do
  let type ← p.seqSignature? b id
  let (below, operands) ← pop type.params.length stack
  let (flow, s) ← nested id operands s
  match flow with
  | .thrown exn => rescue type exn below s
  | flow =>
    let flow ← flow.leave id type.results.length below
    pure (flow, s)

/-- An exception that nothing rescues leaves the construct. -/
def escape (exn : Exn ρ τ) : Action σ ρ τ := fun _ s =>
  some (.thrown exn, s)

/-- An exception leaves a `try_table` by a branch to the label of the first clause that catches it. -/
def rescueByClause (clauses : List Clause) (exn : Exn ρ τ) : Action σ ρ τ := fun below s =>
  match clauses.find? (env.catches exn) with
  | none => escape exn below s
  | some c => do
    let label ← p.seqSignature? b c.label
    let values ← handed exn c
    let (_, values) ← pop label.results.length (below ++ values)
    pure (.branch c.label values, s)

/-- In a `try` an exception goes to the first handler for it, which is not guarded by that `try`. -/
def rescueByHandler (nested : SeqId → Action σ ρ τ) (handlers : List Handler) (type : Signature)
    (exn : Exn ρ τ) : Action σ ρ τ := fun below s =>
  match handlers.find? (env.handles exn) with
  | none => escape exn below s
  | some h => do
    let (flow, s) ← nested h.seq (if h.tag.isSome then exn.payload else []) s
    let flow ← flow.leave h.seq type.results.length below
    pure (flow, s)

/-- An instruction, with `nested` for the sequences in it. -/
def instr (nested : SeqId → Action σ ρ τ) : Instr → Action σ ρ τ
  | .block id => construct p b nested (fun _ => escape) id
  | .tryTable id clauses => construct p b nested (fun _ => env.rescueByClause p b clauses) id
  | .tryCatch id handlers none => construct p b nested (env.rescueByHandler nested handlers) id
  | i => env.plain p arity i

/-- Instructions one after the other, up to the first that does not go on. -/
def sequence (run : Instr → Action σ ρ τ) : List Instr → Action σ ρ τ
  | [], stack, s => some (.next stack, s)
  | i :: is, stack, s =>
    match run i stack s with
    | some (.next stack, s) => sequence run is stack s
    | done => done

/-- The code of a sequence, with sequences nested at most `bound` deep. -/
def exec : Nat → SeqId → Action σ ρ τ
  | 0, _, _, _ => none
  | bound + 1, id, stack, s => do
    let found ← b.seqs[id]?
    sequence (env.instr p b arity (exec bound)) found.instrs stack s

/-- Calls a function with a body. Nothing is returned when code is run that is not valid. -/
def invoke (func : FuncId) (args : List (Datum ρ)) (store : Store σ ρ) :
    Option (Ending ρ τ × Store σ ρ) := do
  let type ← p.funcSignature? func
  let b ← p.funcs[func]?.bind Function.body?
  if args.length = b.params.length then
    let arity := type.results.length
    let (flow, s) ← env.exec p b arity (b.seqs.length + 1) b.entry [] ⟨p.enter b args, store⟩
    let ending ← flow.ending? b.entry arity
    pure (ending, s.store)
  else none

end Env

/-- Functions return values of their types, and exceptions carry values of the types of their tags. -/
structure Env.Sound {σ ρ τ : Type} (env : Env σ ρ τ) (p : Program) : Prop where
  returned : ∀ {func type args s values s'}, p.funcSignature? func = some type →
    env.call func args s = (.returned values, s') → List.Forall₂ Datum.HasType values type.results
  thrown : ∀ {func args s exn s' tag type}, p.tagSignature? tag = some type →
    env.call func args s = (.thrown exn, s') → exn.tag = env.tag tag →
    List.Forall₂ Datum.HasType exn.payload type.params

namespace Env

variable {σ ρ τ : Type} {env : Env σ ρ τ} {p : Program} {arity : Nat} {stack stack' : List (Datum ρ)}
  {s s' : Call σ ρ}

section Sequence

variable {run : Instr → Action σ ρ τ} {i : Instr} {is : List Instr}

theorem sequence_next (h : run i stack s = some (.next stack', s')) :
    sequence run (i :: is) stack s = sequence run is stack' s' := by
  simp only [sequence, h]

theorem sequence_stop {flow : Flow ρ τ} (h : run i stack s = some (flow, s'))
    (hflow : flow.goesOn = false) : sequence run (i :: is) stack s = some (flow, s') := by
  simp only [sequence, h]
  cases flow with
  | next stack => cases hflow
  | _ => rfl

theorem sequence_single : sequence run [i] stack s = run i stack s := by
  simp only [sequence]
  split
  next h => rw [h]
  next => rfl

end Sequence

section Constructs

variable {b : Body} {id : SeqId} {type : Signature} {operands : List (Datum ρ)}
  {nested : SeqId → Action σ ρ τ} {rescue : Signature → Exn ρ τ → Action σ ρ τ}

theorem construct_thrown (stack : List (Datum ρ)) (htype : p.seqSignature? b id = some type)
    (hoperands : operands.length = type.params.length) {exn : Exn ρ τ}
    (h : nested id operands s = some (.thrown exn, s')) :
    construct p b nested rescue id (stack ++ operands) s = rescue type exn stack s' := by
  simp only [construct, htype, pop_append stack hoperands, h, Option.bind_eq_bind, Option.bind_some]

theorem construct_leave (stack : List (Datum ρ)) (htype : p.seqSignature? b id = some type)
    (hoperands : operands.length = type.params.length) {flow left : Flow ρ τ}
    (h : nested id operands s = some (flow, s')) (hflow : flow.throws = false)
    (hleave : flow.leave id type.results.length stack = some left) :
    construct p b nested rescue id (stack ++ operands) s = some (left, s') := by
  simp only [construct, htype, pop_append stack hoperands, h, Option.bind_eq_bind, Option.bind_some]
  cases flow with
  | thrown exn => cases hflow
  | _ =>
    simp only [hleave, Option.bind_some]
    rfl

theorem construct_exits (stack : List (Datum ρ)) (htype : p.seqSignature? b id = some type)
    (hoperands : operands.length = type.params.length) {flow : Flow ρ τ}
    (h : nested id operands s = some (flow, s')) (hflow : flow.Exits) :
    construct p b nested rescue id (stack ++ operands) s = some (flow, s') := by
  cases hflow with
  | ret values => exact construct_leave stack htype hoperands h rfl rfl
  | trapped => exact construct_leave stack htype hoperands h rfl rfl

variable [DecidableEq τ] {var : LocalId} {value : Datum ρ} {ending : Ending ρ τ} {store : Store σ ρ}
  {table : TableId}

theorem instr_localGet (h : s.vars var = some value) :
    env.instr p b arity nested (.localGet var) stack s = some (.next (stack ++ [value]), s) := by
  unfold instr plain
  simp only [h, Option.bind_eq_bind, Option.bind_some]
  rfl

theorem instr_localSet (stack : List (Datum ρ)) (h : s.assign var value = some s') :
    env.instr p b arity nested (.localSet var) (stack ++ [value]) s = some (.next stack, s') := by
  have hpop : pop 1 (stack ++ [value]) = some (stack, [value]) := pop_append stack rfl
  unfold instr plain
  simp only [hpop, h, Option.bind_eq_bind, Option.bind_some]
  rfl

theorem instr_localTee (stack : List (Datum ρ)) (h : s.assign var value = some s') :
    env.instr p b arity nested (.localTee var) (stack ++ [value]) s =
      some (.next (stack ++ [value]), s') := by
  have hpop : pop 1 (stack ++ [value]) = some (stack, [value]) := pop_append stack rfl
  unfold instr plain
  simp only [hpop, h, Option.bind_eq_bind, Option.bind_some]
  rfl

theorem instr_call {func : FuncId} {args : List (Datum ρ)} (stack : List (Datum ρ))
    (htype : p.funcSignature? func = some type) (hargs : args.length = type.params.length)
    (h : env.call func args s.store = (ending, store)) :
    env.instr p b arity nested (.call func) (stack ++ args) s =
      some (ending.flow stack, { s with store }) := by
  unfold instr plain
  simp only [htype, pop_append stack hargs, h, Option.bind_eq_bind, Option.bind_some]
  rfl

theorem instr_tableSet {slot : Int32} (stack : List (Datum ρ))
    (h : s.store.put table slot value = some store) :
    env.instr p b arity nested (.tableSet table) (stack ++ [.i32 slot, value]) s =
      some (.next stack, { s with store }) := by
  have hpop : pop 2 (stack ++ [.i32 slot, value]) = some (stack, [.i32 slot, value]) :=
    pop_append stack rfl
  unfold instr plain
  simp only [hpop, h, Option.bind_eq_bind, Option.bind_some]
  rfl

theorem instr_tableSet_outside {slot : Int32} (stack : List (Datum ρ))
    (h : s.store.put table slot value = none) :
    env.instr p b arity nested (.tableSet table) (stack ++ [.i32 slot, value]) s =
      some (.trapped, s) := by
  have hpop : pop 2 (stack ++ [.i32 slot, value]) = some (stack, [.i32 slot, value]) :=
    pop_append stack rfl
  unfold instr plain
  simp only [hpop, h, Option.bind_eq_bind, Option.bind_some]
  rfl

theorem instr_ret {values : List (Datum ρ)} (stack : List (Datum ρ)) (h : values.length = arity) :
    env.instr p b arity nested .ret (stack ++ values) s = some (.ret values, s) := by
  unfold instr plain
  simp only [pop_append stack h, Option.bind_eq_bind, Option.bind_some]
  rfl

theorem exec_succ {bound : Nat} {found : Seq} (h : b.seqs[id]? = some found) :
    env.exec p b arity (bound + 1) id stack s =
      sequence (env.instr p b arity (env.exec p b arity bound)) found.instrs stack s := by
  simp only [exec, h, Option.bind_eq_bind, Option.bind_some]

theorem invoke_eq {func : FuncId} {f : Function} {args : List (Datum ρ)} {flow : Flow ρ τ}
    (hf : p.funcs[func]? = some f) (htype : p.types[f.type]? = some type)
    (hbody : f.kind = .defined b) (hargs : args.length = b.params.length)
    (hexec : env.exec p b type.results.length (b.seqs.length + 1) b.entry [] ⟨p.enter b args, store⟩ =
      some (flow, s')) (hending : flow.ending? b.entry type.results.length = some ending) :
    env.invoke p func args store = some (ending, s'.store) := by
  have hbody? : f.body? = some b := by simp [Function.body?, hbody]
  simp only [invoke, Program.funcSignature?, hf, htype, hbody?, hargs, hexec, hending,
    Option.bind_eq_bind, Option.bind_some, if_true]
  rfl

end Constructs

end Env

end HostCatch
