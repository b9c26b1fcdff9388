import HostCatch.Proofs.Program.Indexing

namespace HostCatch

open List

/-- The opcode that an instruction is written with. -/
def Instr.opcode : Instr → UInt8
  | block _ => 0x02
  | loop _ => 0x03
  | ifElse _ _ => 0x04
  | tryCatch _ _ _ => 0x06
  | throw _ => 0x08
  | br _ => 0x0C
  | brIf _ => 0x0D
  | brTable _ _ => 0x0E
  | ret => 0x0F
  | call _ => 0x10
  | callIndirect _ _ => 0x11
  | returnCall _ => 0x12
  | returnCallIndirect _ _ => 0x13
  | tryTable _ _ => 0x1F
  | localGet _ => 0x20
  | localSet _ => 0x21
  | localTee _ => 0x22
  | tableGet _ => 0x25
  | tableSet _ => 0x26
  | const (.i32 _) => 0x41
  | const (.i64 _) => 0x42
  | const (.f32 _) => 0x43
  | const (.f64 _) => 0x44
  | refNull _ => 0xD0
  | refFunc _ => 0xD2
  | raw i => i.op
  | _ => 0x00

/-- An instruction with the immediates that its opcode takes. -/
def Wire.Instr.Writable (i : Wire.Instr) : Prop :=
  ∃ bytes, Wire.instr i = .ok bytes

/-- An instruction that ends a construct or begins a further part of it. -/
inductive Wire.Instr.IsMark : Wire.Instr → Prop
  | other : IsMark ⟨0x05, .none⟩
  | handler (tag) : IsMark ⟨0x07, .throw tag⟩
  | close : IsMark ⟨0x0B, .none⟩
  | delegate (depth) : IsMark ⟨0x18, .branch depth⟩
  | anyHandler : IsMark ⟨0x19, .none⟩

/-- Code has one instruction for each of these, in their order, and else marks only. -/
inductive Lists (R : Instr → Wire.Instr → Prop) : List Instr → List Wire.Instr → Prop
  | nil : Lists R [] []
  | each {i x is ws} : R i x → Lists R is ws → Lists R (i :: is) (x :: ws)
  | mark {x is ws} : x.IsMark → Lists R is ws → Lists R is (x :: ws)

namespace Lists

variable {R : Instr → Wire.Instr → Prop} {is js : List Instr} {vs ws : List Wire.Instr}

theorem append (h : Lists R is vs) (h' : Lists R js ws) : Lists R (is ++ js) (vs ++ ws) := by
  induction h with
  | nil => exact h'
  | each hx _ ih => exact .each hx ih
  | mark hx _ ih => exact .mark hx ih

theorem imp {S : Instr → Wire.Instr → Prop} (h : Lists R is ws) (hRS : ∀ i x, R i x → S i x) :
    Lists S is ws := by
  induction h with
  | nil => exact .nil
  | each hx _ ih => exact .each (hRS _ _ hx) ih
  | mark hx _ ih => exact .mark hx ih

theorem enclosed {i : Instr} {first last : Wire.Instr} (h : R i first) (hlast : last.IsMark)
    (hinner : Lists R is ws) : Lists R (i :: is) (first :: ws ++ [last]) := by
  have hall := (each h hinner).append (mark hlast nil)
  rwa [append_nil] at hall

theorem flatten {visits : List (List Visit)} {parts : List (List Wire.Instr)}
    (h : Forall₂ (fun vs part => Lists R (vs.map Visit.instr) part) visits parts) :
    Lists R (visits.flatten.map Visit.instr) parts.flatten := by
  induction h with
  | nil => exact .nil
  | cons hfirst _ ih =>
    rw [flatten_cons, map_append, flatten_cons]
    exact hfirst.append ih

theorem exists_of_mem (h : Lists R is ws) {i : Instr} (hi : i ∈ is) : ∃ x ∈ ws, R i x := by
  induction h with
  | nil => cases hi
  | each hx _ ih =>
    rcases mem_cons.mp hi with rfl | hi
    · exact ⟨_, mem_cons_self, hx⟩
    · obtain ⟨x, hmem, hx⟩ := ih hi
      exact ⟨x, mem_cons_of_mem _ hmem, hx⟩
  | mark _ _ ih =>
    obtain ⟨x, hmem, hx⟩ := ih hi
    exact ⟨x, mem_cons_of_mem _ hmem, hx⟩

theorem of_mem (h : Lists R is ws) {x : Wire.Instr} (hx : x ∈ ws) : x.IsMark ∨ ∃ i ∈ is, R i x := by
  induction h with
  | nil => cases hx
  | each hi _ ih =>
    rcases mem_cons.mp hx with rfl | hx
    · exact .inr ⟨_, mem_cons_self, hi⟩
    · refine (ih hx).imp_right ?_
      rintro ⟨i, hmem, hi⟩
      exact ⟨i, mem_cons_of_mem _ hmem, hi⟩
  | mark hmark _ ih =>
    rcases mem_cons.mp hx with rfl | hx
    · exact .inl hmark
    · exact ih hx

end Lists

theorem forall₂_between {α β γ : Type} {R : α → β → Prop} {S : β → γ → Prop} {as : List α}
    {cs : List γ} (h : Forall₂ (fun a c => ∃ b, R a b ∧ S b c) as cs) :
    ∃ bs, Forall₂ R as bs ∧ Forall₂ S bs cs := by
  induction h with
  | nil => exact ⟨[], .nil, .nil⟩
  | cons hfirst _ ih =>
    obtain ⟨b, hab, hbc⟩ := hfirst
    obtain ⟨bs, hleft, hright⟩ := ih
    exact ⟨b :: bs, .cons hab hleft, .cons hbc hright⟩

namespace Emitting

/-- How the code of an instruction begins. For a construct it holds the number of the type of the
block. -/
inductive Begins (w : Emitting) (types : List Signature) : Instr → Wire.Instr → Prop
  | plain {labels i x} : w.Stands labels i x → Begins w types i x
  | construct {i x id s k} : i.children.head? = some id → w.body.seqs[id]? = some s →
      x.op = i.opcode → x.blockType? = some k → s.type.Numbered types k → x.Writable →
      Begins w types i x

variable {w : Emitting} {types : List Signature} {labels : List SeqId}

theorem Opening.isMark {tag : Option TagId} {first : Wire.Instr} (h : w.Opening tag first) :
    first.IsMark := by
  cases h with
  | all => exact .anyHandler
  | tag => exact .handler _

/-- One instruction: its own code, then what is written inside it. -/
theorem Shapes.lists {N : SeqId → List Wire.Instr → Prop} {i : Instr} {part : List Wire.Instr}
    (h : w.Shapes types N labels i part) {walk : SeqId → Except Abort (List Visit)}
    (hnested : ∀ id ws, N id ws → ∃ visits, walk id = .ok visits ∧
      Lists (w.Begins types) (visits.map Visit.instr) ws)
    (hempty : ∀ id s, w.body.seqs[id]? = some s → s.instrs = [] →
      ∀ other visits, walk other = .ok visits → walk id = .ok []) :
    ∃ inner, Forall₂ (fun child visits => walk child = .ok visits) i.children inner ∧
      Lists (w.Begins types) (i :: inner.flatten.map Visit.instr) part := by
  have hbegins {id : SeqId} {k : Int32} (hopened : w.Opened types id k) {i : Instr} {x : Wire.Instr}
      (hchild : i.children.head? = some id) (hop : x.op = i.opcode) (hk : x.blockType? = some k)
      (hx : x.Writable) : w.Begins types i x := by
    obtain ⟨s, hs, htype⟩ := hopened
    exact .construct hchild hs hop hk htype hx
  cases h with
  | plain hx => exact ⟨[], hx.children ▸ .nil, .each (.plain hx) .nil⟩
  | block hopened hws | loop hopened hws | tryTable hopened _ hws =>
    obtain ⟨visits, hvisits, hws⟩ := hnested _ _ hws
    refine ⟨[visits], .cons hvisits .nil, ?_⟩
    rw [flatten_singleton]
    exact .enclosed (hbegins hopened rfl rfl rfl ⟨_, rfl⟩) .close hws
  | ifEmpty hopened hfirst hs hnil =>
    obtain ⟨visits, hvisits, hfirst⟩ := hnested _ _ hfirst
    refine ⟨[visits, []], .cons hvisits (.cons (hempty _ _ hs hnil _ _ hvisits) .nil), ?_⟩
    rw [flatten_cons, flatten_singleton, append_nil]
    exact .enclosed (hbegins hopened rfl rfl rfl ⟨_, rfl⟩) .close hfirst
  | ifElse hopened hfirst hsecond =>
    obtain ⟨visits, hvisits, hfirst⟩ := hnested _ _ hfirst
    obtain ⟨visits', hvisits', hsecond⟩ := hnested _ _ hsecond
    refine ⟨[visits, visits'], .cons hvisits (.cons hvisits' .nil), ?_⟩
    rw [flatten_cons, flatten_singleton, map_append]
    exact .enclosed (hbegins hopened rfl rfl rfl ⟨_, rfl⟩) .close (hfirst.append (.mark .other hsecond))
  | @tryCatch _ handlers _ _ parts delegate hopened hws hparts =>
    obtain ⟨visits, hvisits, hws⟩ := hnested _ _ hws
    have hparts : Forall₂ (fun (h : Handler) part => ∃ visits, walk h.seq = .ok visits ∧
        Lists (w.Begins types) (visits.map Visit.instr) part) handlers parts := by
      refine hparts.imp ?_
      rintro h part ⟨first, ws, hfirst, hws, rfl⟩
      obtain ⟨visits, hvisits, hws⟩ := hnested _ _ hws
      exact ⟨visits, hvisits, .mark hfirst.isMark hws⟩
    obtain ⟨inner, hinner, hall⟩ := forall₂_between hparts
    refine ⟨visits :: inner, .cons hvisits (forall₂_map_left_iff.mpr hinner), ?_⟩
    rw [flatten_cons, map_append]
    exact .enclosed (hbegins hopened rfl rfl rfl ⟨_, rfl⟩) (by cases delegate <;> constructor)
      (hws.append (.flatten hall))

/-- Code lists what a walk meets, in order. -/
theorem Codes.lists {bound : Nat} {id : SeqId} {ws : List Wire.Instr}
    (h : w.Codes types bound labels id ws) : ∃ visits, w.body.walkSeq bound id = .ok visits ∧
      Lists (w.Begins types) (visits.map Visit.instr) ws := by
  induction bound generalizing labels id ws with
  | zero => exact h.elim
  | succ bound ih =>
    obtain ⟨s, parts, hs, hparts, rfl⟩ := h
    -- a sequence without instructions is walked as soon as any other is
    have hempty : ∀ id s, w.body.seqs[id]? = some s → s.instrs = [] → ∀ other visits,
        w.body.walkSeq bound other = .ok visits → w.body.walkSeq bound id = .ok [] := by
      intro id s hs hnil other visits hother
      cases bound with
      | zero => cases hother
      | succ bound => exact Body.walkSeq_succ_eq_ok_iff.mpr ⟨s, [], hs, rfl, by rw [hnil]; exact .nil⟩
    rw [← zipIdx_map_fst 0 s.instrs, forall₂_map_left_iff] at hparts
    have hvisited : Forall₂ (fun (entry : Instr × Nat) part => ∃ visits,
        (∃ nested, Forall₂ (fun child vs => w.body.walkSeq bound child = .ok vs)
            entry.1.children nested ∧ visits = ⟨id, entry.2, entry.1⟩ :: nested.flatten) ∧
          Lists (w.Begins types) (visits.map Visit.instr) part) s.instrs.zipIdx parts := by
      refine hparts.imp fun entry part hpart => ?_
      obtain ⟨nested, hnested, hpart⟩ := hpart.lists (fun _ _ hws => ih hws) hempty
      exact ⟨⟨id, entry.2, entry.1⟩ :: nested.flatten, ⟨nested, hnested, rfl⟩, hpart⟩
    obtain ⟨visits, hvisits, hlists⟩ := forall₂_between hvisited
    exact ⟨visits.flatten, Body.walkSeq_succ_eq_ok_iff.mpr ⟨s, visits, hs, rfl, hvisits⟩,
      .flatten hlists⟩

end Emitting

theorem Program.WritesBody.lists {p : Program} {extra : List ValType} {id : FuncId} {b : Body}
    {code : Wire.FuncBody} (h : p.WritesBody extra id b code) : ∃ visits ws, b.walk = .ok visits ∧
      Wire.encodeInstrs (ws ++ [Emitting.close]) = .ok code.code ∧
      Lists (Emitting.Begins ⟨p.numbering, p.types, id, b, b.slots⟩ (p.typesWith extra))
        (visits.map Visit.instr) ws := by
  obtain ⟨ws, hencode, hcodes⟩ := h.instrs
  obtain ⟨visits, hwalk, hlists⟩ := hcodes.lists
  exact ⟨visits, ws, hwalk, hencode, hlists⟩

end HostCatch
