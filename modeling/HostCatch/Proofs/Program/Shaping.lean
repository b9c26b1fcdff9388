import HostCatch.Proofs.Program.Lowering
import HostCatch.Proofs.Program.Walk
import Mathlib.Logic.Relation

namespace HostCatch

open List

namespace Emit

/-- Writing only adds to the types that are asked for, and only types without a code of their own. -/
def Grows {α : Type} (x : Emit α) : Prop :=
  ∀ u a v, x.run u = .ok (a, v) → ∃ added, v = u ++ added ∧ ∀ t ∈ added, t.needsHeap = true

/-- One more type is asked for: it has no code of its own and is not there yet. -/
inductive Asks (types : List Signature) : List ValType → List ValType → Prop
  | more {asked : List ValType} {t : ValType} : t.needsHeap = true → ⟨[], [t]⟩ ∉ types → t ∉ asked →
      Asks types asked (asked ++ [t])

/-- Writing asks for types one by one. -/
def Collects {α : Type} (types : List Signature) (x : Emit α) : Prop :=
  ∀ u a v, x.run u = .ok (a, v) → Relation.ReflTransGen (Asks types) u v

variable {α β : Type} {types : List Signature}

namespace Collects

theorem pure (a : α) : Collects types (Pure.pure a) := by
  intro u b v h
  cases h
  exact .refl

theorem bind {x : Emit α} {f : α → Emit β} (hx : Collects types x) (hf : ∀ a, Collects types (f a)) :
    Collects types (x >>= f) := by
  intro u b v h
  obtain ⟨a, t, ha, h⟩ := run_bind_eq_ok_iff.mp h
  exact (hx u a t ha).trans (hf a t b v h)

theorem mapM {f : α → Emit β} {as : List α} (hf : ∀ a, Collects types (f a)) :
    Collects types (as.mapM f) := by
  induction as with
  | nil => exact pure []
  | cons a as ih =>
    rw [mapM_cons]
    exact (hf a).bind fun b => ih.bind fun bs => pure (b :: bs)

theorem grows {x : Emit α} (hx : Collects types x) : Grows x := by
  intro u a v h
  have hasks := hx u a v h
  clear h
  induction hasks with
  | refl => exact ⟨[], (append_nil u).symm, fun _ ht => absurd ht not_mem_nil⟩
  | tail _ hask ih =>
    obtain ⟨added, rfl, hadded⟩ := ih
    obtain ⟨hheap, -, -⟩ := hask
    exact ⟨added ++ [_], append_assoc .., forall_mem_append.mpr
      ⟨hadded, forall_mem_singleton.mpr hheap⟩⟩

end Collects

/-- Writing asks for types one by one, and its results have a property wherever these are the first
of those that are asked for in the end. -/
structure Fits (types : List Signature) (final : List ValType) (x : Emit α) (P : α → Prop) : Prop where
  collects : Collects types x
  result : ∀ u a v, x.run u = .ok (a, v) → v <+: final → P a

namespace Fits

variable {final : List ValType} {P : α → Prop} {f : α → Emit β} {Q : β → Prop}

theorem pure {a : α} (h : P a) : Fits types final (Pure.pure a) P where
  collects := .pure a
  result := by
    rintro u _ _ ⟨⟩ _
    exact h

/-- What the types are is known only in the end, so what follows is looked at before what is
known of its beginning. -/
theorem bind {x : Emit α} (hx : Fits types final x P) (hf : ∀ a, Fits types final (f a) fun b => P a → Q b) :
    Fits types final (x >>= f) Q where
  collects := hx.collects.bind fun a => (hf a).collects
  result := by
    intro u b v h hv
    obtain ⟨a, t, ha, hb⟩ := run_bind_eq_ok_iff.mp h
    obtain ⟨added, rfl, -⟩ := (hf a).collects.grows t b v hb
    exact (hf a).result t b _ hb hv (hx.result u a t ha ((prefix_append t added).trans hv))

theorem lift_bind {x : Except Failure α} (hf : ∀ a, x = .ok a → Fits types final (f a) Q) :
    Fits types final (liftM x >>= f) Q := by
  cases x with
  | ok a => exact hf a rfl
  | error e => exact ⟨fun u b v h => (by cases h), fun u b v h => (by cases h)⟩

theorem liftAbort_bind {x : Except Abort α} (hf : ∀ a, x = .ok a → Fits types final (f a) Q) :
    Fits types final (liftM x >>= f) Q := by
  cases x with
  | ok a => exact hf a rfl
  | error e => exact ⟨fun u b v h => (by cases h), fun u b v h => (by cases h)⟩

theorem mapM {as : List α} {P : α → β → Prop} (hf : ∀ a ∈ as, Fits types final (f a) (P a)) :
    Fits types final (as.mapM f) (Forall₂ P as) := by
  induction as with
  | nil => exact pure .nil
  | cons a as ih =>
    rw [mapM_cons]
    refine (hf a mem_cons_self).bind fun b => ?_
    refine (ih fun a' ha' => hf a' (mem_cons_of_mem _ ha')).bind fun bs => pure ?_
    exact fun hbs hb => .cons hb hbs

end Fits

end Emit

/-- The number that is written for the type of a block, among the types of the module that is written.
A result without a code of its own has that of the first type which gives just this result. -/
inductive BlockType.Numbered (types : List Signature) : BlockType → Int32 → Prop
  | empty : Numbered types .empty (-64)
  | multi (id) : Numbered types (.multi id) (Int32.ofInt (UInt32.ofNat id).toNat)
  | code {result} : result.needsHeap = false →
      Numbered types (.single result) (Int32.ofInt (result.code.toNat - 0x80))
  | first {result n} : result.needsHeap = true → types[n]? = some ⟨[], [result]⟩ →
      types.idxOf ⟨[], [result]⟩ = n → Numbered types (.single result) (Int32.ofNat n)

/-- The place of a type among all others, told from its place among those that give one result. -/
theorem idxOf_append_single {types : List Signature} {result : ValType} (h : ⟨[], [result]⟩ ∉ types)
    (extra : List ValType) : (types ++ extra.map (Signature.mk [] [·])).idxOf ⟨[], [result]⟩ =
      types.length + extra.idxOf result := by
  rw [idxOf_append_of_notMem h, List.idxOf, findIdx_map, List.idxOf]
  congr 2
  funext t
  simp [Bool.beq_eq_decide_eq]

namespace Emitting

open Emit

variable {w : Emitting} {labels : List SeqId}

/-- A block that gives one result is written with the code of the result or with the first type that
gives just this result, which may be asked for. -/
theorem blockType_single_eq_ok {u v : List ValType} {k : Int32} {result : ValType}
    (h : (w.blockType (.single result)).run u = .ok (k, v)) :
    (result.needsHeap = false ∧ k = Int32.ofInt (result.code.toNat - 0x80) ∧ v = u) ∨
      result.needsHeap = true ∧ ∃ n, k = Int32.ofNat n ∧ n < w.types.length + v.length ∧
        (w.types ++ v.map (Signature.mk [] [·])).idxOf ⟨[], [result]⟩ = n ∧
        (v = u ∨ v = u ++ [result] ∧ Asks w.types u v) := by
  simp only [blockType] at h
  by_cases hheap : result.needsHeap = true
  · rw [if_pos hheap] at h
    refine .inr ⟨hheap, ?_⟩
    cases hfind : w.types.findIdx? (· = ⟨[], [result]⟩) with
    | some id =>
      rw [hfind] at h
      cases h
      obtain ⟨hlt, hfirst⟩ := findIdx?_eq_some_iff_findIdx_eq.mp hfind
      have hfirst : w.types.idxOf ⟨[], [result]⟩ = id := hfirst
      have hmem : ⟨[], [result]⟩ ∈ w.types := idxOf_lt_length_iff.mp (hfirst ▸ hlt)
      exact ⟨id, rfl, by omega, (idxOf_append_of_mem hmem).trans hfirst, .inl rfl⟩
    | none =>
      rw [hfind] at h
      have hnew : ⟨[], [result]⟩ ∉ w.types := by
        intro hmem
        simpa using findIdx?_eq_none_iff.mp hfind _ hmem
      obtain ⟨_, _, hget, hset⟩ := run_bind_eq_ok_iff.mp h
      cases hget
      have hle := idxOf_le_length (a := result) (l := u)
      by_cases hplace : u.idxOf result = u.length
      · have hfresh : result ∉ u := idxOf_eq_length_iff.mp hplace
        simp only [hplace, ↓reduceIte] at hset
        cases hset
        refine ⟨_, rfl, by simp, ?_, .inr ⟨rfl, .more hheap hnew hfresh⟩⟩
        rw [idxOf_append_single hnew, idxOf_append_of_notMem hfresh]
        simp
      · simp only [hplace, ↓reduceIte] at hset
        cases hset
        exact ⟨_, rfl, by omega, idxOf_append_single hnew u, .inl rfl⟩
  · rw [if_neg hheap] at h
    cases h
    exact .inl ⟨by simpa using hheap, rfl, rfl⟩

theorem blockType_collects (w : Emitting) (type : BlockType) : Collects w.types (w.blockType type) := by
  cases type with
  | empty => exact .pure _
  | multi type => exact .pure _
  | single result =>
    intro u k v h
    obtain ⟨-, -, rfl⟩ | ⟨-, -, -, -, -, rfl | ⟨-, hask⟩⟩ := blockType_single_eq_ok h
    · exact .refl
    · exact .refl
    · exact .single hask

theorem blockType_fits (w : Emitting) (final : List ValType) (type : BlockType) :
    Fits w.types final (w.blockType type)
      (type.Numbered (w.types ++ final.map (Signature.mk [] [·]))) where
  collects := w.blockType_collects type
  result := by
    rintro u k v h ⟨later, rfl⟩
    cases type with
    | empty =>
      cases h
      exact .empty
    | multi id =>
      cases h
      exact .multi id
    | single result =>
      obtain ⟨hcode, rfl, -⟩ | ⟨hheap, n, rfl, hn, hfirst, -⟩ := blockType_single_eq_ok h
      · exact .code hcode
      · have hmem : ⟨[], [result]⟩ ∈ w.types ++ v.map (Signature.mk [] [·]) := by
          rw [← idxOf_lt_length_iff, hfirst, length_append, length_map]
          exact hn
        rw [map_append, ← append_assoc]
        refine .first hheap ?_ ?_
        · rw [← hfirst, ← idxOf_append_of_mem hmem]
          exact getElem?_idxOf (mem_append_left _ hmem)
        · rw [idxOf_append_of_mem hmem, hfirst]

theorem seq_eq_ok {id : SeqId} {s : Seq} (h : w.seq id = .ok s) : w.body.seqs[id]? = some s := by
  unfold seq at h
  split at h
  next found hfound =>
    cases h
    exact hfound
  next => cases h

/-- How a `try` ends. -/
def ending : Option UInt32 → Wire.Instr
  | some depth => ⟨0x18, .branch depth⟩
  | none => close

/-- The number of the type of a sequence, which is that of a construct around it. -/
def Opened (w : Emitting) (types : List Signature) (id : SeqId) (k : Int32) : Prop :=
  ∃ s, w.body.seqs[id]? = some s ∧ s.type.Numbered types k

/-- What is written inside the labels for an instruction that contains no sequence: its operation, with
the numbers of what it names. -/
inductive Stands (w : Emitting) (labels : List SeqId) : Instr → Wire.Instr → Prop
  | br {target k} : w.depth labels target = .ok k → Stands w labels (.br target) ⟨0x0C, .branch k⟩
  | brIf {target k} : w.depth labels target = .ok k → Stands w labels (.brIf target) ⟨0x0D, .branch k⟩
  | brTable {targets ks last k} :
      List.Forall₂ (fun target k => w.depth labels target = .ok k) targets ks →
      w.depth labels last = .ok k → Stands w labels (.brTable targets last) ⟨0x0E, .brTable ks k⟩
  | call {func k} : w.funcIndex func = .ok k → Stands w labels (.call func) ⟨0x10, .call k⟩
  | returnCall {func k} : w.funcIndex func = .ok k →
      Stands w labels (.returnCall func) ⟨0x12, .call k⟩
  | refFunc {func k} : w.funcIndex func = .ok k → Stands w labels (.refFunc func) ⟨0xD2, .refFunc k⟩
  | callIndirect (type) {table k} : w.numbering.table table = .ok k →
      Stands w labels (.callIndirect type table) ⟨0x11, .callIndirect (UInt32.ofNat type) k⟩
  | returnCallIndirect (type) {table k} : w.numbering.table table = .ok k →
      Stands w labels (.returnCallIndirect type table) ⟨0x13, .callIndirect (UInt32.ofNat type) k⟩
  | localGet {var k} : w.slot var = .ok k → Stands w labels (.localGet var) ⟨0x20, .localVar k⟩
  | localSet {var k} : w.slot var = .ok k → Stands w labels (.localSet var) ⟨0x21, .localVar k⟩
  | localTee {var k} : w.slot var = .ok k → Stands w labels (.localTee var) ⟨0x22, .localVar k⟩
  | tableGet {table k} : w.numbering.table table = .ok k →
      Stands w labels (.tableGet table) ⟨0x25, .table k⟩
  | tableSet {table k} : w.numbering.table table = .ok k →
      Stands w labels (.tableSet table) ⟨0x26, .table k⟩
  | throw {tag k} : w.numbering.tag tag = .ok k → Stands w labels (.throw tag) ⟨0x08, .throw k⟩
  | i32 (value) : Stands w labels (.const (.i32 value)) ⟨0x41, .i32 value⟩
  | i64 (value) : Stands w labels (.const (.i64 value)) ⟨0x42, .i64 value⟩
  | f32 (bits) : Stands w labels (.const (.f32 bits)) ⟨0x43, .f32 bits⟩
  | f64 (bits) : Stands w labels (.const (.f64 bits)) ⟨0x44, .f64 bits⟩
  | refNull (type) : Stands w labels (.refNull type) ⟨0xD0, .refNull type.heap⟩
  | ret : Stands w labels .ret ⟨0x0F, .none⟩
  | unreachable : Stands w labels .unreachable ⟨0x00, .none⟩
  | raw (x) : Stands w labels (.raw x) x

/-- A leaf is written as the instruction that stands for it. -/
theorem stands_of_plain {i : Instr} {x : Wire.Instr} (h : w.plain labels i = .ok x) :
    w.Stands labels i x := by
  cases i with
  | br | brIf | call | returnCall | refFunc | localGet | localSet | localTee =>
    obtain ⟨k, hk, h⟩ := of_bind h
    cases h
    constructor
    exact hk
  | callIndirect | returnCallIndirect | tableGet | tableSet | throw =>
    obtain ⟨k, hk, h⟩ := of_bind h
    cases h
    constructor
    exact liftM_abort_eq_ok_iff.mp hk
  | brTable =>
    obtain ⟨ks, hks, h⟩ := of_bind h
    obtain ⟨k, hk, h⟩ := of_bind h
    cases h
    exact .brTable (mapM_eq_ok_iff.mp hks) hk
  | const value =>
    cases value with
    | other => cases h
    | _ =>
      cases h
      constructor
  | refNull | ret | unreachable | raw =>
    cases h
    constructor
  | block | loop | ifElse | tryCatch | tryTable => cases h

/-- A clause is written with the depth of its label and the index of its tag, if it has one. -/
structure Directs (w : Emitting) (labels : List SeqId) (c : Clause) (x : Wire.CatchClause) : Prop where
  kind : x.kind = c.kind
  label : w.depth labels c.label = .ok x.label
  tag : Wire.CatchClause.takesTag c.kind = true → w.numbering.tag c.tag = .ok x.tag
  bare : Wire.CatchClause.takesTag c.kind = false → x.tag = 0

theorem catches_eq_ok {clauses : List Clause} {catches : List Wire.CatchClause}
    (h : w.catches labels clauses = .ok catches) : Forall₂ (w.Directs labels) clauses catches := by
  refine (mapM_eq_ok_iff.mp h).imp fun c x hx => ?_
  obtain ⟨label, hlabel, hx⟩ := of_bind hx
  dsimp only at hx
  split at hx
  next htakes =>
    obtain ⟨tag, htag, hx⟩ := of_bind hx
    cases hx
    exact ⟨rfl, hlabel, fun _ => liftM_abort_eq_ok_iff.mp htag, fun hnone => absurd htakes (by simp [hnone])⟩
  next hnone =>
    cases hx
    exact ⟨rfl, hlabel, fun htakes => absurd htakes hnone, fun _ => rfl⟩

theorem depth_eq_ok {target : SeqId} {k : UInt32} (h : w.depth labels target = .ok k) :
    ∃ n, k = UInt32.ofNat n ∧ labels[n]? = some target := by
  unfold depth at h
  split at h
  next n hn =>
    cases h
    obtain ⟨hlt, hget, -⟩ := findIdx?_eq_some_iff_getElem.mp hn
    exact ⟨n, rfl, List.getElem?_eq_some_iff.mpr ⟨hlt, of_decide_eq_true hget⟩⟩
  next => cases h

theorem funcIndex_eq_ok {func : FuncId} {k : UInt32} (h : w.funcIndex func = .ok k) :
    Numbering.index w.numbering.funcs func = .ok k := by
  unfold funcIndex at h
  split at h
  next hlt =>
    cases h
    exact if_pos hlt
  next => cases h

theorem Stands.children {i : Instr} {x : Wire.Instr} (h : w.Stands labels i x) :
    i.children = [] := by
  cases h <;> rfl

/-- What is written for an instruction inside the labels in a module with these types, where `N` relates
sequences to their code. -/
inductive Shapes (w : Emitting) (types : List Signature) (N : SeqId → List Wire.Instr → Prop)
    (labels : List SeqId) : Instr → List Wire.Instr → Prop
  | plain {i x} : w.Stands labels i x → Shapes w types N labels i [x]
  | block {id k ws} : w.Opened types id k → N id ws →
      Shapes w types N labels (.block id) (⟨0x02, .block k⟩ :: ws ++ [close])
  | loop {id k ws} : w.Opened types id k → N id ws →
      Shapes w types N labels (.loop id) (⟨0x03, .block k⟩ :: ws ++ [close])
  | ifEmpty {consequent alternative k ws s} : w.Opened types consequent k → N consequent ws →
      w.body.seqs[alternative]? = some s → s.instrs = [] →
      Shapes w types N labels (.ifElse consequent alternative) (⟨0x04, .block k⟩ :: ws ++ [close])
  | ifElse {consequent alternative k ws ws'} : w.Opened types consequent k → N consequent ws →
      N alternative ws' → Shapes w types N labels (.ifElse consequent alternative)
        (⟨0x04, .block k⟩ :: ws ++ ⟨0x05, .none⟩ :: ws' ++ [close])
  | tryCatch {id handlers k ws parts} (delegate) : w.Opened types id k → N id ws →
      List.Forall₂ (fun (h : Handler) part => ∃ first ws, w.Opening h.tag first ∧ N h.seq ws ∧
        part = first :: ws) handlers parts →
      Shapes w types N labels (.tryCatch id handlers delegate)
        (⟨0x06, .block k⟩ :: ws ++ parts.flatten ++ [ending delegate])
  | tryTable {id clauses k catches ws} : w.Opened types id k →
      List.Forall₂ (w.Directs labels) clauses catches → N id ws →
      Shapes w types N labels (.tryTable id clauses) (⟨0x1F, .tryTable k catches⟩ :: ws ++ [close])

/-- What is written for a sequence with others nested in it less than `bound` deep. -/
def Codes (w : Emitting) (types : List Signature) :
    Nat → List SeqId → SeqId → List Wire.Instr → Prop
  | 0, _, _, _ => False
  | bound + 1, labels, id, ws => ∃ s parts, w.body.seqs[id]? = some s ∧
    List.Forall₂ (w.Shapes types (fun inner => w.Codes types bound (inner :: labels) inner) labels) s.instrs
      parts ∧ ws = parts.flatten

variable {w : Emitting} {final : List ValType} {labels : List SeqId}

theorem opened_fits (id : SeqId) {f : Seq → Int32 → Emit (List Wire.Instr)}
    {Q : List Wire.Instr → Prop} (hf : ∀ s k, Fits w.types final (f s k) fun ws =>
      w.Opened (w.types ++ final.map (Signature.mk [] [·])) id k → Q ws) :
    Fits w.types final (do
      let s ← (w.body.seq id : Emit Seq)
      let type ← w.blockType s.type
      f s type) Q := by
  refine Fits.liftAbort_bind fun s hs => (w.blockType_fits final s.type).bind fun k => ?_
  refine ⟨(hf s k).collects, fun u ws v hrun hv htype => ?_⟩
  exact (hf s k).result u ws v hrun hv ⟨s, Body.seq_eq_ok_iff.mp hs, htype⟩

/-- Every instruction is written in its shape. -/
theorem instr_shapes {nested : SeqId → Emit (List Wire.Instr)}
    {N : SeqId → List Wire.Instr → Prop} (hnested : ∀ id, Fits w.types final (nested id) (N id))
    (i : Instr) : Fits w.types final (w.instr nested labels i)
      (w.Shapes (w.types ++ final.map (Signature.mk [] [·])) N labels i) := by
  cases i with
  | block id =>
    exact opened_fits id fun s k => (hnested id).bind fun ws => .pure fun hws htype =>
      .block htype hws
  | loop id =>
    exact opened_fits id fun s k => (hnested id).bind fun ws => .pure fun hws htype =>
      .loop htype hws
  | ifElse consequent alternative =>
    refine opened_fits consequent fun s k => (hnested consequent).bind fun first =>
      Fits.liftAbort_bind fun other hother => ?_
    dsimp only
    split
    next hnil =>
      refine .pure fun hfirst htype => ?_
      rw [append_nil]
      exact .ifEmpty htype hfirst (Body.seq_eq_ok_iff.mp hother) hnil
    next =>
      exact (hnested alternative).bind fun second => .pure fun hsecond hfirst htype =>
        .ifElse htype hfirst hsecond
  | tryCatch id handlers delegate =>
    refine opened_fits id fun s k => (hnested id).bind fun ws => ?_
    refine (Fits.mapM (P := fun (h : Handler) part => ∃ first ws, w.Opening h.tag first ∧ N h.seq ws ∧
      part = first :: ws) fun h _ => ?_).bind fun parts => .pure fun hparts hws htype => ?_
    · dsimp only
      cases h.tag with
      | none => exact (hnested h.seq).bind fun ws => .pure fun hws => ⟨_, ws, .all, hws, rfl⟩
      | some tag =>
        exact Fits.liftAbort_bind fun k hk => (hnested h.seq).bind fun ws => .pure fun hws =>
          ⟨_, ws, .tag hk, hws, rfl⟩
    · cases delegate with
      | none => exact .tryCatch none htype hws hparts
      | some depth => exact .tryCatch (some depth) htype hws hparts
  | tryTable id clauses =>
    exact opened_fits id fun s k => Fits.lift_bind fun catches hcatches =>
      (hnested id).bind fun ws => .pure fun hws htype => .tryTable htype (catches_eq_ok hcatches) hws
  | _ => exact Fits.lift_bind fun x hx => .pure (.plain (stands_of_plain hx))

theorem code_codes (bound : Nat) (labels : List SeqId) (id : SeqId) :
    Fits w.types final (w.code bound labels id)
      (w.Codes (w.types ++ final.map (Signature.mk [] [·])) bound labels id) := by
  induction bound generalizing labels id with
  | zero =>
    constructor <;>
    · intro u ws v h
      cases h
  | succ bound ih =>
    refine Fits.lift_bind fun s hs => (Fits.mapM fun i _ =>
      instr_shapes (fun inner => ih (inner :: labels) inner) i).bind fun parts => .pure fun hparts => ?_
    exact ⟨s, parts, seq_eq_ok hs, hparts, rfl⟩

/-- What is written for a sequence, whatever is written after it. -/
theorem codes_of_run {u v : List ValType} {bound : Nat} {id : SeqId} {ws : List Wire.Instr}
    (h : (w.code bound labels id).run u = .ok (ws, v)) (hv : v <+: final) :
    w.Codes (w.types ++ final.map (Signature.mk [] [·])) bound labels id ws :=
  (code_codes bound labels id).result u ws v h hv

end Emitting

end HostCatch
