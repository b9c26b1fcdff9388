import HostCatch.Proofs.Program.Execution
import Mathlib.Data.List.Forall2
import Mathlib.Logic.Relation

namespace HostCatch

open List

/-- A value of the first type can stand where one of the second is expected. A reference that may be
null is none that may not. -/
inductive ValType.Sub (heap : HeapType → HeapType → Prop) : ValType → ValType → Prop
  | same (v) : Sub heap v v
  | ref {r s : RefType} : (r.nullable = true → s.nullable = true) →
      Relation.ReflTransGen heap r.heap s.heap → Sub heap (.ref r) (.ref s)

theorem ValType.Sub.trans {heap : HeapType → HeapType → Prop} {u v w : ValType}
    (h₁ : Sub heap u v) (h₂ : Sub heap v w) : Sub heap u w := by
  cases h₁ with
  | same => exact h₂
  | ref hnull hheap =>
    cases h₂ with
    | same => exact .ref hnull hheap
    | ref hnull' hheap' => exact .ref (hnull' ∘ hnull) (hheap.trans hheap')

/-- Types with a value that variables can start with. -/
def ValType.isDefaultable : ValType → Bool
  | .ref type => type.nullable
  | .unknown _ => false
  | _ => true

/-- Operands that can stand for others, from the bottom of the stack to its top. -/
def SubEach (heap : HeapType → HeapType → Prop) (ts us : List ValType) : Prop :=
  List.Forall₂ (ValType.Sub heap) ts us

namespace SubEach

variable {heap : HeapType → HeapType → Prop} {ts us vs : List ValType}

theorem refl (ts : List ValType) : SubEach heap ts ts :=
  forall₂_same.mpr fun t _ => .same t

theorem trans (h₁ : SubEach heap ts us) (h₂ : SubEach heap us vs) : SubEach heap ts vs := by
  induction h₁ generalizing vs with
  | nil => exact h₂
  | cons hfirst _ ih =>
    cases h₂ with
    | cons hsecond hrest => exact .cons (hfirst.trans hsecond) (ih hrest)

end SubEach

/-- The type of the places of a table. -/
def Table.indexType (t : Table) : ValType :=
  if t.limits.memory64 then .i64 else .i32

def Value.type? : Value → Option ValType
  | .i32 _ => some .i32
  | .i64 _ => some .i64
  | .f32 _ => some .f32
  | .f64 _ => some .f64
  | .other _ => none

/-- The variables that have a value behind an instruction. -/
def Instr.assigned : Instr → List LocalId
  | .localSet var => [var]
  | .localTee var => [var]
  | _ => []

namespace Program

/-- Heap types are named, or are types of the program. -/
def ValidHeap (p : Program) (h : HeapType) : Prop :=
  HeapType.isNamed h = true ∨ 0 ≤ h.toInt ∧ h.toInt.toNat < p.types.length

instance (p : Program) (h : HeapType) : Decidable (p.ValidHeap h) :=
  inferInstanceAs (Decidable (_ ∨ _))

def ValidType (p : Program) : ValType → Prop
  | .ref type => p.ValidHeap type.heap
  | .unknown _ => False
  | _ => True

def ValidBlock (p : Program) : BlockType → Prop
  | .single result => p.ValidType result
  | _ => True

/-- The type of an instruction that has just one and no code in it, where `vars` are the variables
that have a value. -/
def plainType? (p : Program) (b : Body) (vars : List LocalId) : Instr → Option Signature
  | .localGet var => if var ∈ vars then p.locals[var]?.map (⟨[], [·]⟩) else none
  | .localSet var =>
    if var ∈ b.params ++ b.locals then p.locals[var]?.map (⟨[·], []⟩) else none
  | .localTee var =>
    if var ∈ b.params ++ b.locals then p.locals[var]?.map fun t => ⟨[t], [t]⟩ else none
  | .call func => p.funcSignature? func
  | .tableSet table => p.tables[table]?.map fun t => ⟨[t.indexType, .ref t.elem], []⟩
  | .const value => value.type?.map (⟨[], [·]⟩)
  | .refNull type => if p.ValidHeap type.heap then some ⟨[], [.ref ⟨true, type.heap⟩]⟩ else none
  | _ => none

/-- What a handler of a `try` finds on the stack. -/
def handed? (p : Program) (h : Handler) : Option (List ValType) :=
  match h.tag with
  | some tag => (p.tagSignature? tag).map Signature.params
  | none => some []

/-- The variables that have a value from the start. -/
def initialised (p : Program) (b : Body) : List LocalId :=
  b.params ++ b.locals.filter fun var => p.locals[var]?.any ValType.isDefaultable

end Program

/-- The labels in scope, and what a branch to each takes. -/
abbrev Labels := List (SeqId × List ValType)

/-- Code from one stack of operands to another, where `typed` tells what single instructions take and
give. An instruction takes its operands from the top of the stack, and the variables are those that
have a value. -/
inductive CodeTyped (heap : HeapType → HeapType → Prop)
    (typed : List LocalId → Labels → Instr → List ValType → List ValType → Prop) :
    List LocalId → Labels → List Instr → List ValType → List ValType → Prop
  | nil (vars labels ts) : CodeTyped heap typed vars labels [] ts ts
  | cons {vars labels i is ts us vs} (below) : typed vars labels i ts us →
      CodeTyped heap typed (i.assigned ++ vars) labels is (below ++ us) vs →
      CodeTyped heap typed vars labels (i :: is) (below ++ ts) vs
  | sub {vars labels is ts us ts' us'} : SubEach heap ts' ts → SubEach heap us us' →
      CodeTyped heap typed vars labels is ts us → CodeTyped heap typed vars labels is ts' us'

/-- What an instruction takes and gives, in a body of a function with these results. -/
inductive Typed (heap : HeapType → HeapType → Prop) (p : Program) (b : Body)
    (results : List ValType) : List LocalId → Labels → Instr → List ValType → List ValType → Prop
  | plain {vars labels i ts us} : p.plainType? b vars i = some ⟨ts, us⟩ →
      Typed heap p b results vars labels i ts us
  -- What follows is not reached, so it finds whatever it takes.
  | ret {vars labels ts us} : Typed heap p b results vars labels .ret (ts ++ results) us
  | unreachable {vars labels ts us} : Typed heap p b results vars labels .unreachable ts us
  | block {vars labels seq s ts us} : b.seqs[seq]? = some s → p.ValidBlock s.type →
      p.blockSignature? s.type = some ⟨ts, us⟩ →
      CodeTyped heap (Typed heap p b results) vars ((seq, us) :: labels) s.instrs ts us →
      Typed heap p b results vars labels (.block seq) ts us
  -- The labels of the clauses are outside of the construct.
  | tryTable {vars labels seq clauses s ts us} : b.seqs[seq]? = some s → p.ValidBlock s.type →
      p.blockSignature? s.type = some ⟨ts, us⟩ →
      CodeTyped heap (Typed heap p b results) vars ((seq, us) :: labels) s.instrs ts us →
      (∀ c ∈ clauses, c.kind = 0x00 ∧ ∃ sig taken, p.tagSignature? c.tag = some sig ∧
        (c.label, taken) ∈ labels ∧ SubEach heap sig.params taken) →
      Typed heap p b results vars labels (.tryTable seq clauses) ts us
  | tryCatch {vars labels seq handlers s ts us} : b.seqs[seq]? = some s → p.ValidBlock s.type →
      p.blockSignature? s.type = some ⟨ts, us⟩ →
      CodeTyped heap (Typed heap p b results) vars ((seq, us) :: labels) s.instrs ts us →
      (∀ h ∈ handlers, (b.seqs[h.seq]?).isSome ∧ (p.handed? h).isSome) →
      (∀ h ∈ handlers, ∀ s taken, b.seqs[h.seq]? = some s → p.handed? h = some taken →
        CodeTyped heap (Typed heap p b results) vars ((h.seq, us) :: labels) s.instrs taken us) →
      Typed heap p b results vars labels (.tryCatch seq handlers none) ts us

/-- A body that is valid for a function of a type. -/
structure Program.BodyTyped (heap : HeapType → HeapType → Prop) (p : Program) (type : TypeId)
    (b : Body) : Prop where
  locals : ∀ var ∈ b.locals, ∃ t, p.locals[var]? = some t ∧ p.ValidType t
  code : ∃ sig s, p.types[type]? = some sig ∧
    b.params.map (p.locals[·]?) = sig.params.map some ∧ b.seqs[b.entry]? = some s ∧
    CodeTyped heap (Typed heap p b sig.results) (p.initialised b) [(b.entry, sig.results)] s.instrs
      [] sig.results

theorem Typed.plain_iff {heap : HeapType → HeapType → Prop} {p : Program} {b : Body}
    {results ts us : List ValType} {vars : List LocalId} {labels : Labels} {i : Instr}
    {sig : Signature} (h : p.plainType? b vars i = some sig) :
    Typed heap p b results vars labels i ts us ↔ ts = sig.params ∧ us = sig.results := by
  constructor
  · intro htyped
    cases htyped with
    | plain h' =>
      cases h.symm.trans h'
      exact ⟨rfl, rfl⟩
    | _ => cases h
  · rintro ⟨rfl, rfl⟩
    exact .plain h

namespace CodeTyped

variable {heap : HeapType → HeapType → Prop}
variable {typed : List LocalId → Labels → Instr → List ValType → List ValType → Prop}
variable {vars : List LocalId} {labels : Labels} {i : Instr} {is : List Instr}
variable {ts us stack out : List ValType}

theorem nil_iff : CodeTyped heap typed vars labels [] ts us ↔ SubEach heap ts us := by
  constructor
  · intro h
    generalize hnone : ([] : List Instr) = code at h
    induction h with
    | nil => exact .refl _
    | cons => cases hnone
    | sub hts hus _ ih => exact hts.trans ((ih hnone).trans hus)
  · intro h
    exact .sub h (.refl us) (.nil vars labels us)

/-- Subsumption can be had in front of the first instruction. -/
theorem cons_iff : CodeTyped heap typed vars labels (i :: is) stack out ↔ ∃ below ts us,
    SubEach heap stack (below ++ ts) ∧ typed vars labels i ts us ∧
    CodeTyped heap typed (i.assigned ++ vars) labels is (below ++ us) out := by
  constructor
  · intro h
    generalize hcode : i :: is = code at h
    induction h with
    | nil => cases hcode
    | cons below hi hrest =>
      cases hcode
      exact ⟨below, _, _, .refl _, hi, hrest⟩
    | sub hts hus _ ih =>
      obtain ⟨below, ts, us, hstack, hi, hrest⟩ := ih hcode
      exact ⟨below, ts, us, hts.trans hstack, hi, .sub (.refl _) hus hrest⟩
  · rintro ⟨below, ts, us, hstack, hi, hrest⟩
    exact .sub hstack (.refl out) (.cons below hi hrest)

theorem fixed_iff {ins outs : List ValType} (stack : List ValType)
    (hi : ∀ {ts us}, typed vars labels i ts us ↔ ts = ins ∧ us = outs) :
    CodeTyped heap typed vars labels (i :: is) (stack ++ ins) out ↔
      CodeTyped heap typed (i.assigned ++ vars) labels is (stack ++ outs) out := by
  rw [cons_iff]
  constructor
  · rintro ⟨below, ts, us, hstack, htyped, hrest⟩
    obtain ⟨rfl, rfl⟩ := hi.mp htyped
    have hlength : stack.length = below.length := by simpa using hstack.length_eq
    have hbelow : SubEach heap stack below := by
      have htake := forall₂_take stack.length hstack
      rwa [take_left, hlength, take_left] at htake
    exact .sub (rel_append hbelow (SubEach.refl us)) (.refl out) hrest
  · intro hrest
    exact ⟨stack, ins, outs, .refl _, hi.mpr ⟨rfl, rfl⟩, hrest⟩

section Plain

variable {p : Program} {b : Body} {results : List ValType}

theorem plain_iff {sig : Signature} (stack : List ValType) (h : p.plainType? b vars i = some sig) :
    CodeTyped heap (Typed heap p b results) vars labels (i :: is) (stack ++ sig.params) out ↔
      CodeTyped heap (Typed heap p b results) (i.assigned ++ vars) labels is (stack ++ sig.results)
        out :=
  fixed_iff stack (Typed.plain_iff h)

theorem gets_iff {read : List LocalId} {types : List ValType}
    (h : Forall₂ (fun var t => var ∈ vars ∧ p.locals[var]? = some t) read types) :
    CodeTyped heap (Typed heap p b results) vars labels (read.map .localGet ++ is) stack out ↔
      CodeTyped heap (Typed heap p b results) vars labels is (stack ++ types) out := by
  induction h generalizing stack with
  | nil => simp
  | @cons var t read types hvar _ ih =>
    have htype : p.plainType? b vars (.localGet var) = some ⟨[], [t]⟩ := by
      simp [Program.plainType?, hvar.1, hvar.2]
    have hget : CodeTyped heap (Typed heap p b results) vars labels
        (.localGet var :: (read.map .localGet ++ is)) (stack ++ []) out ↔
      CodeTyped heap (Typed heap p b results) vars labels (read.map .localGet ++ is) (stack ++ [t])
        out := plain_iff stack htype
    rw [append_nil] at hget
    rw [map_cons, cons_append, hget, ih, append_assoc, singleton_append]

end Plain

end CodeTyped

end HostCatch
