import HostCatch.Proofs.Program.Readable
import HostCatch.Proofs.Program.Resolving
import HostCatch.Proofs.Program.Tables
import HostCatch.Proofs.Wire.ConstExpr

namespace HostCatch

open List

namespace Wire

open Reader

/-- A constant expression that can be written anew: if it names a function, it holds constants up to
its `end`. -/
def Followable (expr : Bytes) : Prop :=
  ∀ is, decodeInstrs expr = .ok is → is.any (·.op = 0xD2) = true →
    ∃ init, is = init ++ [⟨0x0B, .none⟩] ∧ ∀ i ∈ init, i.IsConstant

end Wire

/-- What is exported as it is written is of a kind that there is and that is not kept otherwise. -/
def ExportTarget.Proper : ExportTarget → Prop
  | other kind _ => kind ≠ Wire.EntityCode.func ∧ kind ≠ Wire.EntityCode.table ∧
      kind ≠ Wire.EntityCode.tag ∧ ¬ Wire.EntityCode.tag < kind
  | _ => True

/-- What is given to a program holds no raw instruction that would be read otherwise, and is exported
as what it is. -/
def Binding.Modelled : Binding → Prop
  | func _ f => ∀ b, f.kind = .defined b → ∀ s ∈ b.seqs, ∀ i ∈ s.instrs, i.Clean
  | exported _ x => x.target.Proper
  | _ => True

namespace Program

open Wire Reader

section Follow

variable {l : Numbering} {expr found : Bytes}

theorem followRef_constant {i j : Wire.Instr} (h : followRef l i = .ok j) (hi : i.IsConstant) :
    j.IsConstant := by
  unfold followRef at h
  split at h
  next hop himm =>
    split at h
    next =>
      cases h
      have hcode : i.op = 0xD2 := UInt8.toNat_inj.mp hop
      exact .plain (hcode ▸ by decide)
    next => cases h
  next =>
    cases h
    exact hi

theorem followExpr_spells (hexpr : Spells constExpr expr expr)
    (hfollow : l.movesFuncs = true → Followable expr) (h : followExpr l expr = .ok found) :
    Spells constExpr found found := by
  unfold followExpr at h
  split at h
  next =>
    cases h
    exact hexpr
  next hmoves =>
    have hfollow := hfollow (by simp_all)
    split at h
    next => cases h
    next is his =>
      obtain ⟨js, hjs, h⟩ := of_bind h
      split at h
      next hnames =>
        obtain ⟨init, rfl, hinit⟩ := hfollow is his hnames
        rw [mapM_append] at hjs
        obtain ⟨moved, hmoved, hjs⟩ := of_bind hjs
        obtain ⟨last, hlast, hjs⟩ := of_bind hjs
        cases hjs
        cases hlast
        refine constExpr_spells (fun j hj => ?_) (liftM_abort_eq_ok_iff.mp h)
        obtain ⟨i, hi, hij⟩ := forall₂_mem_right (mapM_eq_ok_iff.mp hmoved) hj
        exact followRef_constant hij (hinit i hi)
      next =>
        cases h
        exact hexpr

theorem followElement_proper {e f : Element} (he : e.Proper)
    (hfollow : l.movesFuncs = true → ∀ expr ∈ e.exprs, Followable expr)
    (h : followElement l e = .ok f) : f.stored.Proper := by
  obtain ⟨funcs, hfuncs, h⟩ := of_bind h
  obtain ⟨exprs, hexprs, h⟩ := of_bind h
  cases h
  have hall := mapM_eq_ok_iff.mp hexprs
  refine he.refill _ (mapM_eq_ok_iff.mp hfuncs).length_eq.symm hall.length_eq.symm fun expr hmem => ?_
  obtain ⟨before, hbefore, hfound⟩ := forall₂_mem_right hall hmem
  exact followExpr_spells (he.exprs_spelled before hbefore) (fun hmoves => hfollow hmoves before hbefore)
    hfound

end Follow

/-- All that a program carries can be told by its bytes, but for the limits of tables. -/
structure Restorable (p : Program) : Prop extends Storable p where
  memories : ∀ l ∈ p.memories, l.Proper
  globals : ∀ g ∈ p.globals, g.Proper
  elements : ∀ e ∈ p.elements, e.Proper
  data : ∀ d ∈ p.data, Spells Reader.dataSegment (dataSegment d) d
  exports : ∀ x ∈ p.exports, x.target.Proper
  code : ∀ f ∈ p.funcs, ∀ b, f.kind = .defined b → ∀ s ∈ b.seqs, ∀ i ∈ s.instrs, i.Clean

/-- Where functions move, the constant expressions of a program that name them hold constants only. -/
def FollowsConstants (p : Program) : Prop :=
  p.numbering.movesFuncs = true →
    (∀ g ∈ p.globals, Followable g.init) ∧ ∀ e ∈ p.elements, ∀ expr ∈ e.exprs, Followable expr

section Restore

variable {start p : Program} {issued : List Binding}

theorem exportToWire_kind {l : Numbering} {x : Export} {e : Wire.Export}
    (h : exportToWire l x = .ok e) : e.kind = x.kind := by
  unfold exportToWire at h
  dsimp only at h
  split at h <;>
  · obtain ⟨index, -, h⟩ := of_bind h
    cases h
    rfl

theorem kind_le_tag {x : Export} (h : x.target.Proper) : ¬ EntityCode.tag < x.kind := by
  have hcodes : ¬ EntityCode.tag < EntityCode.func ∧ ¬ EntityCode.tag < EntityCode.table ∧
      ¬ EntityCode.tag < EntityCode.tag := by decide
  obtain ⟨name, target⟩ := x
  cases target with
  | func => exact hcodes.1
  | table => exact hcodes.2.1
  | tag => exact hcodes.2.2
  | other => exact h.2.2.2

theorem clean_of_within {tables tags : Nat} {i : Instr} (h : i.Within tables tags) : i.Clean := by
  cases i with
  | raw i => exact h
  | _ => trivial

theorem restorable_empty : Restorable {} where
  inits _ ht := absurd ht not_mem_nil
  others _ hi := absurd hi not_mem_nil
  memories _ hl := absurd hl not_mem_nil
  globals _ hg := absurd hg not_mem_nil
  elements _ he := absurd he not_mem_nil
  data _ hd := absurd hd not_mem_nil
  exports _ hx := absurd hx not_mem_nil
  code _ hf := absurd hf not_mem_nil

/-- What was read can be told by its bytes. -/
theorem restorable_of_parse {data : Bytes} (h : parse data = .ok p) : p.Restorable := by
  obtain ⟨m, hm, hp⟩ := parse_eq_ok_iff.mp h
  obtain ⟨q, s, tables, exports, hread⟩ := ofModule_eq_ok hp
  have hproper := Module.decode_proper hm
  have hparts := hread.parts
  refine ⟨hread.storable hproper, ?_, ?_, ?_, ?_, ?_, ?_⟩
  · rw [hparts]
    exact hproper.memories
  · rw [hparts]
    exact hproper.globals
  · rw [hparts]
    exact hproper.elements
  · rw [hparts]
    exact hproper.data
  · intro x hx
    rw [hread.exports_eq] at hx
    obtain ⟨e, he, hexported⟩ := forall₂_mem_right hread.assembles.exported hx
    cases hexported with
    | func | table | tag => trivial
    | other hfunc htable htag => exact ⟨hfunc, htable, htag, hproper.exports e he⟩
  · exact fun f hf b hkind s hs i hi => clean_of_within (hread.within hf hkind s hs i hi)

/-- It still can after operations with entities that bytes can tell. -/
theorem Reaches.restorable (h : Reaches start issued p) (hissued : ∀ b ∈ issued, b.Modelled)
    (hstart : start.Restorable) : p.Restorable := by
  have hrest := h.rest
  refine ⟨h.storable hstart.toStorable, ?_, ?_, ?_, ?_, ?_, ?_⟩
  · rw [hrest]
    exact hstart.memories
  · rw [hrest]
    exact hstart.globals
  · rw [hrest]
    exact hstart.elements
  · rw [hrest]
    exact hstart.data
  · intro x hx
    obtain ⟨id, hid⟩ := getElem?_of_mem hx
    have hholds : p.Holds (.exported id x) := hid
    rcases h.holds_iff.mp hholds with hold | hnew
    · exact hstart.exports x (mem_of_getElem? hold)
    · exact hissued _ hnew
  · intro f hf
    obtain ⟨id, hid⟩ := getElem?_of_mem hf
    have hholds : p.Holds (.func id f) := hid
    rcases h.holds_iff.mp hholds with hold | hnew
    · exact hstart.code f (mem_of_getElem? hold)
    · exact hissued _ hnew

variable {out : Wire.Module} {bodies : List (UInt32 × Wire.FuncBody)} {extra : List ValType}
  {names : List Wire.Custom}

/-- What is written for a program can be read again, as long as the limits of its tables are in
order. -/
theorem Restorable.sketched (h : p.Restorable) (hfollow : p.FollowsConstants)
    (he : p.Emits out bodies extra names) : out.Sketched := by
  constructor
  · intro e hmem
    obtain ⟨i, hi, hwritten⟩ := forall₂_mem_right (mapM_eq_ok_iff.mp he.imports) hmem
    exact h.importToWire_sketched hi hwritten
  · rw [he.tables]
    refine forall_mem_map.mpr fun t ht => tableToWire_sketched (h.inits t ?_)
    obtain ⟨id, -, hid⟩ := mem_filterMap.mp ht
    exact mem_of_getElem? hid
  · rw [he.memories]
    exact h.memories
  · have hall : Forall₂ (fun (g g' : Global) => ∃ init,
        followExpr p.numbering g.init = .ok init ∧ g' = { g with init }) p.globals out.globals :=
      zipIdx_mapM_eq_ok he.globals fun i g g' hg => by
        obtain ⟨init, hinit, hg⟩ := of_bind hg
        exact ⟨init, emitting_eq_ok_iff.mp hinit, (pure_eq_ok_iff.mp hg).symm⟩
    intro g' hg'
    obtain ⟨g, hg, init, hinit, rfl⟩ := forall₂_mem_right hall hg'
    have hproper := h.globals g hg
    exact ⟨hproper.type, followExpr_spells hproper.init (fun hmoves => (hfollow hmoves).1 g hg) hinit⟩
  · intro e he'
    obtain ⟨x, hx, hwritten⟩ := forall₂_mem_right (mapM_eq_ok_iff.mp he.exports) he'
    rw [exportToWire_kind hwritten]
    exact kind_le_tag (h.exports x hx)
  · have hall : Forall₂ (fun e e' => followElement p.numbering e = .ok e') p.elements
        out.elements := zipIdx_mapM_eq_ok he.elements fun i e e' he' => emitting_eq_ok_iff.mp he'
    intro e' he'
    obtain ⟨e, hmem, hfollowed⟩ := forall₂_mem_right hall he'
    exact followElement_proper (h.elements e hmem) (fun hmoves => (hfollow hmoves).2 e hmem) hfollowed
  · rw [he.data]
    exact h.data
  · exact he.typeDefs
  · exact he.types_coded
  · exact he.code_coded

end Restore

end Program

end HostCatch
