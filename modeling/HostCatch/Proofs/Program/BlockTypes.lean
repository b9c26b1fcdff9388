import HostCatch.Proofs.Program.Execution
import HostCatch.Proofs.Program.Labels
import HostCatch.Proofs.Program.Listing

namespace HostCatch

open List

namespace Wire

/-- The function type that a number stands for as the type of a block: the type at this index, the one
that takes and gives nothing, or the one that gives the result with this code. -/
def blockFuncType? (types : List FuncType) (k : Int) : Option FuncType :=
  if 0 ≤ k then types[k.toNat]?
  else if k = -64 then some ⟨[], [], [], []⟩
  else if -5 ≤ k ∨ -23 ≤ k ∧ k ≤ -12 then some ⟨[], [UInt8.ofNat (k + 0x80).toNat], [], []⟩
  else none

theorem blockFuncType?_natCast (types : List FuncType) (n : Nat) :
    blockFuncType? types n = types[n]? := by
  rw [blockFuncType?, if_pos (Int.natCast_nonneg n), Int.toNat_natCast]

/-- A number stands for a signature, which is also what it is read as. -/
def StandsFor (types : List FuncType) (k : Int) (s : Signature) : Prop :=
  blockFuncType? types k = some s.toWire ∧
    (s.IsKnown → ∀ i, Program.signatureOf i s.toWire.full = .ok s)

/-- An instruction that holds the type of a block. -/
def Instr.isOpening (i : Instr) : Bool :=
  i.blockType?.isSome

end Wire

/-- A construct, or an instruction that is not looked into and holds the type of a block. -/
def Instr.isOpening : Instr → Bool
  | .raw i => i.isOpening
  | i => !i.children.isEmpty

namespace Program

/-- A number is that of a type of blocks: it stands for the same signature. Types of the program have
their own number, and for a result without a code it is that of the first type which gives it. -/
structure Numbered (p : Program) (extra : List ValType) (type : BlockType) (k : Int32) : Prop where
  stands : ∃ s, p.blockSignature? type = some s ∧
    Wire.StandsFor ((p.typesWith extra).map Signature.toWire) k.toInt s
  same : ∀ id, type = .multi id → k.toInt = id
  first : ∀ result, type = .single result → result.needsHeap = true →
    k.toInt = (p.typesWith extra).idxOf ⟨[], [result]⟩

/-- How constructs are opened: with the number of their type, where this can be written at all. -/
inductive OpensAs (p : Program) (extra : List ValType) (b : Body) : Instr → Wire.Instr → Prop
  | construct {i x id s k} : i.children.head? = some id → b.seqs[id]? = some s → x.op = i.opcode →
      x.blockType? = some k → (s.type.Readable p.types.length → p.Numbered extra s.type k) →
      OpensAs p extra b i x
  | kept (x) : OpensAs p extra b (.raw x) x

end Program

/-- Code opens the constructs among some instructions, in their order. -/
def OpensEach (R : Instr → Wire.Instr → Prop) (is : List Instr) (ws : List Wire.Instr) : Prop :=
  List.Forall₂ R (is.filter Instr.isOpening) (ws.filter Wire.Instr.isOpening)

namespace OpensEach

variable {R : Instr → Wire.Instr → Prop} {i : Instr} {x : Wire.Instr}

theorem plain (hi : i.isOpening = false) (hx : x.isOpening = false) : OpensEach R [i] [x] := by
  rw [OpensEach, filter_singleton, filter_singleton, hi, hx]
  exact .nil

theorem construct (hi : i.isOpening = true) (hx : x.isOpening = true) (h : R i x) :
    OpensEach R [i] [x] := by
  rw [OpensEach, filter_singleton, filter_singleton, hi, hx]
  exact .cons h .nil

end OpensEach

theorem Lists.opensEach {R S : Instr → Wire.Instr → Prop} {is : List Instr} {ws : List Wire.Instr}
    (h : Lists R is ws) (hR : ∀ i x, R i x → OpensEach S [i] [x]) : OpensEach S is ws := by
  induction h with
  | nil => exact .nil
  | @each i x is ws hx _ ih =>
    rw [OpensEach, ← singleton_append, ← singleton_append (l := ws), filter_append, filter_append]
    exact rel_append (hR i x hx) ih
  | @mark x _ _ hx _ ih =>
    have hsilent : ¬ x.isOpening = true := by
      cases hx <;> exact Bool.false_ne_true
    rwa [OpensEach, filter_cons_of_neg hsilent]

namespace Wire

theorem blockFuncType?_code (types : List FuncType) {v : ValType} (hknown : v.IsKnown)
    (hcode : v.needsHeap = false) :
    blockFuncType? types (v.code.toNat - 0x80) = some (Signature.toWire ⟨[], [v]⟩) := by
  have hrange := ValType.code_range hknown hcode
  have hback : UInt8.ofNat ((v.code.toNat : Int) - 0x80 + 0x80).toNat = v.code := by
    rw [Int.sub_add_cancel, Int.toNat_natCast, UInt8.ofNat_toNat]
  have hexts : ValType.toExts [v] = [] := by simp [ValType.toExts, hcode]
  rw [blockFuncType?, if_neg (by omega), if_neg (by omega), if_pos (by omega), hback]
  simp only [Signature.toWire, hexts, map_cons, map_nil]
  rfl

theorem standsFor_of_eq {types : List FuncType} {k : Int} {s : Signature}
    (h : blockFuncType? types k = some s.toWire) : StandsFor types k s :=
  ⟨h, fun hknown i => Signature.signatureOf_full hknown i⟩

end Wire

/-- What is written for the type of a block stands for its signature. -/
theorem BlockType.Numbered.program {p : Program} {extra : List ValType} {type : BlockType} {k : Int32}
    (h : type.Numbered (p.typesWith extra) k) (hsize : (p.typesWith extra).length < 2 ^ 31)
    (hreadable : type.Readable p.types.length) : p.Numbered extra type k := by
  cases h with
  | empty =>
    exact ⟨⟨_, rfl, Wire.standsFor_of_eq rfl⟩, fun _ heq => BlockType.noConfusion heq,
      fun _ heq => BlockType.noConfusion heq⟩
  | multi id =>
    have hid : id < p.types.length := hreadable
    rw [Program.typesWith, length_append] at hsize
    have hshort : id < 2 ^ 31 := Nat.lt_trans hid (by omega)
    have hk : (Int32.ofInt (UInt32.ofNat id).toNat).toInt = id := by
      rw [Reader.toNat_ofNat_size (hshort.trans (by decide))]
      exact Int32.toInt_ofNat_of_lt hshort
    refine ⟨⟨_, getElem?_eq_getElem hid, Wire.standsFor_of_eq ?_⟩, fun _ heq => ?_,
      fun _ heq => BlockType.noConfusion heq⟩
    · rw [hk, Wire.blockFuncType?_natCast, getElem?_map, Program.typesWith,
        getElem?_append_left hid, getElem?_eq_getElem hid, Option.map_some]
    · cases heq
      exact hk
  | code hcode =>
    refine ⟨⟨_, rfl, Wire.standsFor_of_eq ?_⟩, fun _ heq => BlockType.noConfusion heq,
      fun _ heq hheap => ?_⟩
    · rw [toInt_code hreadable hcode, Wire.blockFuncType?_code _ hreadable hcode]
    · cases heq
      cases hcode.symm.trans hheap
  | @first _ n _ hget hfirst =>
    have hlt := (List.getElem?_eq_some_iff.mp hget).1
    have hk : (Int32.ofNat n).toInt = n := Int32.toInt_ofNat_of_lt (by omega)
    refine ⟨⟨_, rfl, Wire.standsFor_of_eq ?_⟩, fun _ heq => BlockType.noConfusion heq,
      fun _ heq _ => ?_⟩
    · rw [hk, Wire.blockFuncType?_natCast, getElem?_map, hget, Option.map_some]
    · cases heq
      rw [hk, hfirst]

theorem Emitting.Begins.opens {p : Program} {extra : List ValType} {w : Emitting}
    (hsize : (p.typesWith extra).length < 2 ^ 31) {i : Instr} {x : Wire.Instr}
    (h : w.Begins (p.typesWith extra) i x) : OpensEach (p.OpensAs extra w.body) [i] [x] := by
  cases h with
  | plain hx =>
    cases hx with
    | raw =>
      rw [OpensEach, filter_singleton, filter_singleton, Instr.isOpening]
      cases x.isOpening with
      | true => exact .cons (.kept x) .nil
      | false => exact .nil
    | _ => exact .plain rfl rfl
  | construct hchild hs hop hk htype =>
    refine .construct ?_ (by rw [Wire.Instr.isOpening, hk]; rfl)
      (.construct hchild hs hop hk (htype.program hsize))
    cases i <;> first | rfl | cases hchild

namespace Program

variable {p : Program} {out : Wire.Module} {extra : List ValType}

/-- The code of a body opens its constructs in the order in which it is walked. The instructions of the
code are those that are read again, where all fits the format and no other instruction is in its way. -/
structure OpensBody (p : Program) (extra : List ValType) (b : Body) (code : Bytes)
    (visits : List Visit) (ws : List Wire.Instr) : Prop where
  walk : b.walk = .ok visits
  written : Wire.encodeInstrs ws = .ok code
  read : p.Paired → (∀ space, p.count space ≤ 2 ^ 32) → b.Sized →
    (∀ s ∈ b.seqs, ∀ i ∈ s.instrs, i.Clean) → code.length < 2 ^ 32 → Wire.decodeInstrs code = .ok ws
  opens : OpensEach (p.OpensAs extra b) (visits.map Visit.instr) ws

/-- The constructs of a body are opened with the numbers of their types. -/
theorem WritesBody.opens {id : FuncId} {b : Body} {body : Wire.FuncBody}
    (h : p.WritesBody extra id b body) (hsize : (p.typesWith extra).length < 2 ^ 31) :
    ∃ visits ws, p.OpensBody extra b body.code visits ws := by
  obtain ⟨ws, hencode, hws⟩ := h.instrs
  obtain ⟨visits, hwalk, hopens⟩ := hws.lists
  refine ⟨visits, ws ++ [Emitting.close], hwalk, hencode, ?_, ?_⟩
  · intro hp hcount hsized hclean hlength
    have hreceives : Receives p { p with types := p.typesWith extra } extra := ⟨rfl, rfl, rfl, rfl⟩
    exact hreceives.decodeInstrs_eq hp hcount hsize hsized hclean hws hencode hlength
  · have hall := hopens.append (.mark .close .nil)
    rw [append_nil] at hall
    exact hall.opensEach fun _ _ hbegins => hbegins.opens hsize

/-- What is asked for bit by bit is asked for once, and only where it is missing. -/
theorem asked_once {types : List Signature} (h : Relation.ReflTransGen (Emit.Asks types) [] extra) :
    extra.Nodup ∧ ∀ t ∈ extra, t.needsHeap = true ∧ ⟨[], [t]⟩ ∉ types := by
  induction h with
  | refl => exact ⟨.nil, forall_mem_nil _⟩
  | tail _ hask ih =>
    obtain ⟨hheap, hnew, hfresh⟩ := hask
    obtain ⟨hnodup, hall⟩ := ih
    refine ⟨nodup_append.mpr ⟨hnodup, nodup_singleton _, ?_⟩,
      forall_mem_append.mpr ⟨hall, forall_mem_singleton.mpr ⟨hheap, hnew⟩⟩⟩
    rintro t ht t' ht' rfl
    exact hfresh (mem_singleton.mp ht' ▸ ht)

/-- The types of blocks are those of the program: its types come first in the module, as they were, and
behind them each result without a code that a block gives and no type does, once. Every construct of
every function is opened with the number of its type among them. -/
structure KeepsBlockTypes (p : Program) (extra : List ValType) (out : Wire.Module) : Prop where
  types : out.types = (p.typesWith extra).map Signature.toWire
  typeDefs : out.typeDefs = out.types.map fun t => .func (some t)
  once : extra.Nodup
  missing : ∀ t ∈ extra, t.needsHeap = true ∧ ⟨[], [t]⟩ ∉ p.types
  bodies : List.Forall₂ (fun id body => ∃ f b visits ws, p.funcs[id]? = some f ∧ f.kind = .defined b ∧
    p.OpensBody extra b body.code visits ws) p.definedFuncs out.code

/-- Every program whose types have room in a module is written with the types of its blocks. -/
theorem toModule_blockTypes (hout : p.toModule = .ok out) (hsize : out.types.length < 2 ^ 31) :
    ∃ extra, p.KeepsBlockTypes extra out := by
  obtain ⟨bodies, extra, names, he⟩ := toModule_eq_ok_iff.mp hout
  have hsize : (p.typesWith extra).length < 2 ^ 31 := by
    rwa [he.types, length_map] at hsize
  obtain ⟨honce, hmissing⟩ := asked_once
    (Emit.Collects.mapM (p.emitFunction_collects p.numbering) [] bodies extra he.run)
  refine ⟨extra, he.types, he.typeDefs, honce, hmissing, ?_⟩
  rw [he.code, forall₂_map_right_iff]
  refine he.functions.imp ?_
  rintro id body ⟨f, b, hf, hkind, -, -, hbody⟩
  obtain ⟨visits, ws, hopens⟩ := hbody.opens hsize
  exact ⟨f, b, visits, ws, hf, hkind, hopens⟩

/-- Blocks with references as results: one that a type of the program gives, one that both functions
ask for, and one more. -/
def typedBlocks : Program where
  types := [⟨[], []⟩, ⟨[], [.ref ⟨false, 0⟩]⟩]
  funcs := [
    ⟨[], 0, .defined { seqs := [⟨.multi 0, [.block 1, .loop 2, .tryTable 3 []]⟩,
      ⟨.single (.ref ⟨false, 0⟩), [.unreachable]⟩, ⟨.single .i32, [.unreachable]⟩,
      ⟨.single (.ref ⟨true, 1⟩), [.unreachable]⟩] }⟩,
    ⟨[], 0, .defined { seqs := [⟨.multi 0, [.ifElse 1 2, .tryCatch 3 [] none]⟩,
      ⟨.single (.ref ⟨true, 1⟩), [.unreachable]⟩, ⟨.empty, []⟩,
      ⟨.single (.ref ⟨false, -16⟩), [.block 4]⟩, ⟨.multi 1, [.unreachable]⟩] }⟩]

theorem typedBlocks_kept : ∃ out extra, typedBlocks.toModule = .ok out ∧ out.types.length = 4 ∧
    out.code.map Wire.FuncBody.code =
      [[0x02, 0x01, 0x00, 0x0B, 0x03, 0x7F, 0x00, 0x0B, 0x1F, 0x02, 0x00, 0x00, 0x0B, 0x0B],
        [0x04, 0x02, 0x00, 0x0B, 0x06, 0x03, 0x02, 0x01, 0x00, 0x0B, 0x0B, 0x0B]] ∧
    typedBlocks.KeepsBlockTypes extra out := by
  have hrun : (typedBlocks.toModule.toOption.any fun out => out.types.length == 4 &&
      out.code.map Wire.FuncBody.code ==
        [[0x02, 0x01, 0x00, 0x0B, 0x03, 0x7F, 0x00, 0x0B, 0x1F, 0x02, 0x00, 0x00, 0x0B, 0x0B],
          [0x04, 0x02, 0x00, 0x0B, 0x06, 0x03, 0x02, 0x01, 0x00, 0x0B, 0x0B, 0x0B]]) = true := by
    decide +kernel
  obtain ⟨out, hout, hrun⟩ := any_toOption_iff.mp hrun
  simp only [Bool.and_eq_true, beq_iff_eq] at hrun
  obtain ⟨extra, hkept⟩ := toModule_blockTypes hout (by rw [hrun.1]; decide)
  exact ⟨out, extra, hout, hrun.1, hrun.2, hkept⟩

end Program

end HostCatch
