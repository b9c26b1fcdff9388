import HostCatch.Proofs.Program.References

namespace HostCatch

open List HostCatch.Numbering

namespace Wire

variable {i : Instr} {space : Space}

theorem Layout.opcodes : ∀ n < 256, (ofOpcode? (.ofNat n) = some call → n = 0x10 ∨ n = 0x12) ∧
    (ofOpcode? (.ofNat n) = some callIndirect → n = 0x11 ∨ n = 0x13) ∧
    (ofOpcode? (.ofNat n) = some table → n = 0x25 ∨ n = 0x26) ∧
    (ofOpcode? (.ofNat n) = some refFunc → n = 0xD2) ∧
    (ofOpcode? (.ofNat n) = some misc → n = 0xFC) ∧
    (ofOpcode? (.ofNat n) = some throw → n = 0x07 ∨ n = 0x08) ∧
    (ofOpcode? (.ofNat n) = some tryTable → n = 0x1F) := by
  decide +kernel

theorem Instr.known_of_indices (h : i.indices space ≠ []) :
    i.Known ∨ space = .table ∧ i.op = 0xFC := by
  obtain ⟨op, imm⟩ := i
  obtain ⟨hcall, hindirect, htable, href, hmisc, hthrow, htry⟩ := Layout.opcodes op.toNat op.toNat_lt
  rw [UInt8.ofNat_toNat] at hcall hindirect htable href hmisc hthrow htry
  unfold indices at h
  dsimp only at h
  split at h
  next hlayout =>
    rcases hcall hlayout with hop | hop
    · obtain rfl := eq_ofNat_of_toNat_eq hop
      exact .inl (.call _)
    · obtain rfl := eq_ofNat_of_toNat_eq hop
      exact .inl (.returnCall _)
  next hlayout =>
    obtain rfl := eq_ofNat_of_toNat_eq (href hlayout)
    exact .inl (.refFunc _)
  next hlayout =>
    rcases hindirect hlayout with hop | hop
    · obtain rfl := eq_ofNat_of_toNat_eq hop
      exact .inl (.callIndirect _ _)
    · obtain rfl := eq_ofNat_of_toNat_eq hop
      exact .inl (.returnCallIndirect _ _)
  next hlayout =>
    rcases htable hlayout with hop | hop
    · obtain rfl := eq_ofNat_of_toNat_eq hop
      exact .inl (.tableGet _)
    · obtain rfl := eq_ofNat_of_toNat_eq hop
      exact .inl (.tableSet _)
  next hlayout => exact .inr ⟨rfl, eq_ofNat_of_toNat_eq (hmisc hlayout)⟩
  next hlayout =>
    rcases hthrow hlayout with hop | hop
    · obtain rfl := eq_ofNat_of_toNat_eq hop
      exact .inl (.catch _)
    · obtain rfl := eq_ofNat_of_toNat_eq hop
      exact .inl (.throw _)
  next hlayout =>
    obtain rfl := eq_ofNat_of_toNat_eq (htry hlayout)
    exact .inl (.tryTable _ _)
  next => exact absurd rfl h

theorem Instr.indices_of_not_known (h : ¬ i.Known) (hbulk : space = .table → i.op ≠ 0xFC) :
    i.indices space = [] := by
  by_contra hsome
  obtain hknown | ⟨htable, hop⟩ := known_of_indices hsome
  · exact h hknown
  · exact hbulk htable hop

theorem CatchClause.tags_renumber (l : Numbering) (c : CatchClause) :
    (c.renumber l.renumbering).tags = c.tags.map fun tag => indexIn l.tags tag.toNat := by
  cases htakes : takesTag c.kind <;> simp [tags, renumber, renumbering, htakes]

theorem Instr.indices_renumber (l : Numbering) (hbulk : space = .table → i.op ≠ 0xFC) :
    (i.renumber l.renumbering).indices space =
      (i.indices space).map fun n => indexIn (l.order space) n.toNat := by
  by_cases hknown : i.Known
  · cases hknown with
    | tryTable t catches =>
      cases space with
      | tag =>
        calc (catches.map (CatchClause.renumber l.renumbering)).flatMap CatchClause.tags
            = catches.flatMap fun c => c.tags.map fun tag => indexIn l.tags tag.toNat := by
              simp only [flatMap_map, CatchClause.tags_renumber]
          _ = (catches.flatMap CatchClause.tags).map fun tag => indexIn l.tags tag.toNat :=
              (map_flatMap ..).symm
      | func | table => rfl
    | _ => cases space <;> rfl
  · rw [renumber_raw _ hknown, indices_of_not_known hknown hbulk, map_nil]

/-- Whether a reference is that of an instruction on whole tables. -/
def isBulk (space : Space) (x : Reference UInt32) : Bool :=
  space = .table && x.op = 0xFC

/-- A reference after entities have got new indices: it follows, unless it is not looked into. -/
def place (l : Numbering) (space : Space) (x : Reference UInt32) : Reference UInt32 :=
  if isBulk space x then x else ⟨x.op, indexIn (l.order space) x.target.toNat⟩

theorem Instr.references_renumber (l : Numbering) (space : Space) (i : Instr) :
    (i.renumber l.renumbering).references space = (i.references space).map (place l space) := by
  unfold references
  rw [renumber_op, map_map]
  by_cases hbulk : space = .table ∧ i.op = 0xFC
  · have hsame : i.renumber l.renumbering = i := by
      refine renumber_raw _ fun hknown => ?_
      cases hknown <;> simp at hbulk
    rw [hsame]
    refine map_congr_left fun n _ => ?_
    simp [place, isBulk, hbulk]
  · rw [indices_renumber l (fun hspace hop => hbulk ⟨hspace, hop⟩), map_map]
    refine map_congr_left fun n _ => ?_
    simp [place, isBulk, hbulk]

theorem references_dropEmptyElse (space : Space) (is : List Instr) :
    references space (dropEmptyElse is) = references space is := by
  unfold references
  fun_induction dropEmptyElse is with
  | case1 i j rest h ih =>
    have hnone : i.references space = [] := by
      obtain ⟨op, imm⟩ := i
      obtain rfl : op = 0x05 := h.1
      cases space <;> rfl
    rw [ih]
    exact (congrArg (· ++ _) hnone).symm
  | case2 i j rest h ih => rw [flatMap_cons, ih, ← flatMap_cons]
  | case3 is => rfl

end Wire

/-- How many entities of a space code may refer to. -/
def Scope.count (scope : Scope) : Space → Nat
  | .func => scope.funcs
  | .table => scope.tables
  | .tag => scope.tags

namespace Reading

variable {scope : Scope} {frames : List Frame} {space : Space}

theorem plain_indices_lt {i : Wire.Instr} {j : Instr} (h : scope.Plain frames i j)
    (hbulk : space = .table → i.op ≠ 0xFC) :
    ∀ n ∈ i.indices space, n.toNat < scope.count space := by
  have hone (wanted : Space) {op : UInt8} {imm : Wire.Imm} {index : UInt32} {what : String} {id : Nat}
      (hindices : ∀ space, Wire.Instr.indices space ⟨op, imm⟩ = if wanted = space then [index] else [])
      (hcheck : scope.check what index.toNat (scope.count wanted) = .ok id) :
      ∀ n ∈ Wire.Instr.indices space ⟨op, imm⟩, n.toNat < scope.count space := by
    intro n hn
    rw [hindices] at hn
    split at hn
    next hspace =>
      subst hspace
      rw [mem_singleton.mp hn]
      exact (Scope.check_eq_ok hcheck).2
    next => exact absurd hn not_mem_nil
  cases h with
  | call hf | returnCall hf | refFunc hf =>
    exact hone .func (fun space => by cases space <;> rfl) hf
  | callIndirect _ ht | returnCallIndirect _ ht | tableGet ht | tableSet ht =>
    exact hone .table (fun space => by cases space <;> rfl) ht
  | throw ht => exact hone .tag (fun space => by cases space <;> rfl) ht
  | raw hraw =>
    rw [Wire.Instr.indices_of_not_known hraw hbulk]
    exact fun n hn => absurd hn not_mem_nil
  | _ => cases space <;> exact fun n hn => absurd hn not_mem_nil

theorem clause_tags_lt {c : Wire.CatchClause} {clause : Clause}
    (h : scope.clause frames c = .ok clause) : ∀ n ∈ c.tags, n.toNat < scope.tags := by
  intro n hn
  unfold Wire.CatchClause.tags at hn
  split at hn
  next htakes =>
    obtain ⟨label, -, h⟩ := of_bind h
    rw [if_pos htakes] at h
    obtain ⟨tag, htag, -⟩ := of_bind h
    rw [mem_singleton.mp hn]
    exact (Scope.check_eq_ok htag).2
  next => exact absurd hn not_mem_nil

/-- What a step reads names entities that are there. -/
theorem Step.indices_lt {r next : Reading} {top : Frame} {outer : List Frame} {i : Wire.Instr}
    (h : Step scope r top outer i next) (hbulk : space = .table → i.op ≠ 0xFC) :
    ∀ n ∈ i.indices space, n.toNat < scope.count space := by
  have hnone : ∀ n ∈ ([] : List UInt32), n.toNat < scope.count space :=
    fun n hn => absurd hn not_mem_nil
  cases h with
  | plain h => exact plain_indices_lt h hbulk
  | handler hcatches _ =>
    cases hcatches with
    | tag htag =>
      cases space with
      | tag => exact forall_mem_singleton.mpr (Scope.check_eq_ok htag).2
      | func | table => exact hnone
    | all => cases space <;> exact hnone
  | tryTable _ hclauses =>
    cases space with
    | tag =>
      intro n hn
      obtain ⟨c, hc, hn⟩ := mem_flatMap.mp hn
      obtain ⟨k, hk⟩ := getElem?_of_mem hc
      obtain ⟨clause, -, hclause⟩ := forall₂_getElem? (mapM_eq_ok_iff.mp hclauses) hk
      exact clause_tags_lt hclause n hn
    | func | table => exact hnone
  | _ => cases space <;> exact hnone

/-- Code that can be read names only entities that exist, but for instructions on whole tables. -/
theorem run_indices_lt {r : Reading} {is : List Wire.Instr} {final : List Seq}
    (h : run scope r is = .ok final) : ∀ i ∈ is, (space = .table → i.op ≠ 0xFC) →
      ∀ n ∈ i.indices space, n.toNat < scope.count space := by
  induction is generalizing r with
  | nil => exact fun i hi => absurd hi not_mem_nil
  | cons j rest ih =>
    obtain ⟨top, outer, next, -, hstep, hrun⟩ := run_cons_iff.mp h
    exact forall_mem_cons.mpr ⟨hstep.indices_lt, ih hrun⟩

end Reading

def Space.code : Space → UInt8
  | .func => Wire.EntityCode.func
  | .table => Wire.EntityCode.table
  | .tag => Wire.EntityCode.tag

theorem Space.code_injective : Function.Injective Space.code := by
  intro space space' h
  cases space <;> cases space' <;> first | rfl | cases h

namespace Program

open Wire

section Read

variable {m out : Wire.Module} {p q s r : Program} {tables : List Table} {exports : List Export}
  {issued : List Binding} {bodies : List (UInt32 × Wire.FuncBody)} {extra : List ValType}
  {names : List Wire.Custom}
  {i : Nat} {code : Wire.FuncBody}

theorem ReadFrom.code_placed (hread : ReadFrom m p q s tables exports) (h : p.Keeps r)
    (hr : r.Paired) (hcode : m.code[i]? = some code) {u v : List ValType}
    {body : UInt32 × Wire.FuncBody}
    (hbody : (r.emitFunction r.numbering (q.funcs.length + i)).run u = .ok (body, v)) :
    ∃ is js, decodeInstrs code.code = .ok is ∧ decodeInstrs body.2.code = .ok js ∧ ∀ space,
      references space js = (references space is).map (place r.numbering space) ∧
        ∀ x ∈ references space is, isBulk space x = false → x.target.toNat < p.count space := by
  obtain ⟨start, declared, b, f, hf, hkind, hb, -⟩ := hread.body hcode
  obtain ⟨is, his, hrun⟩ := Body.seqsOfCode_eq_ok_iff.mp hb.seqs
  obtain ⟨-, -, hemit⟩ := emitFunction_eq_ok (getElem?_of_isPrefix h.funcs hf) hkind hbody
  have hnodup : (b.params ++ b.locals).Nodup := by
    rw [hb.vars]
    exact nodup_range'
  have hsame : b.seqs = b.seqs.map (Seq.redirect id) := by
    rw [Seq.redirect_id, map_id]
  obtain ⟨ws, hws, hgives⟩ := Emitting.code_of_read (h.follows hr _ hnodup) hrun hsame hb.entry
  obtain ⟨_, _, -, hwritten, hencode, -⟩ := emitBody_eq_ok hemit
  cases (hgives u).symm.trans hwritten
  rw [← hws] at hencode
  have hspelled : ∀ j ∈ (dropEmptyElse is).map (·.renumber r.numbering.renumbering), j.Spelled := by
    intro j hj
    obtain ⟨k, hk, rfl⟩ := mem_map.mp hj
    exact (decodeInstrs_spelled his k (mem_of_mem_dropEmptyElse hk)).renumber _
  obtain ⟨w, hw, hdecode⟩ := decodeInstrs_encodeInstrs hspelled
  cases hw.symm.trans hencode
  refine ⟨is, _, his, hdecode, fun space => ⟨?_, fun x hx hbulk => ?_⟩⟩
  · rw [← references_dropEmptyElse space is]
    unfold references
    rw [flatMap_map, map_flatMap]
    exact flatMap_congr fun j _ => Instr.references_renumber _ space j
  · obtain ⟨j, hj, hx⟩ := mem_flatMap.mp hx
    obtain ⟨n, hn, rfl⟩ := mem_map.mp hx
    have hlt := Reading.run_indices_lt hrun j hj (fun htable hop => by simp [isBulk, htable, hop] at hbulk)
      n hn
    cases space <;> exact hlt

/-- The references in the code of a function move with what they name. -/
theorem ReadFrom.code_written (hread : ReadFrom m p q s tables exports) (h : p.Keeps r)
    (hr : r.Paired) (he : r.Emits out bodies extra names) (hcode : m.code[i]? = some code) :
    ∃ body is js, out.code[i]? = some body ∧
      decodeInstrs code.code = .ok is ∧ decodeInstrs body.code = .ok js ∧ ∀ space,
        references space js = (references space is).map (place r.numbering space) ∧
          ∀ x ∈ references space is, isBulk space x = false → x.target.toNat < p.count space := by
  have hdefined : p.definedFuncs = List.range' q.funcs.length m.code.length := by
    rw [hread.ordered.definedFuncs, hread.imported, hread.length, Nat.add_sub_cancel_left]
  have hplace : r.definedFuncs[i]? = some (q.funcs.length + i) := by
    refine getElem?_of_isPrefix (positions_isPrefix h.funcs) (?_ : p.definedFuncs[i]? = _)
    have hlt := lt_of_getElem? hcode
    rw [hdefined, getElem?_range' hlt, Nat.one_mul]
  obtain ⟨body, hget, u, v, hrun⟩ := forall₂_getElem? (run_mapM_eq_ok he.run) hplace
  obtain ⟨is, js, his, hjs, hall⟩ := hread.code_placed h hr hcode hrun
  refine ⟨body.2, is, js, ?_, his, hjs, hall⟩
  rw [he.code, getElem?_map, hget]
  rfl

theorem WritesBody.refers {id : FuncId} {b : Body} (h : r.WritesBody extra id b code)
    (hl : r.numbering.Indexes) : ∃ ws, encodeInstrs ws = .ok code.code ∧
      ∀ space, Refers r.numbering space (b.references space) ws := by
  obtain ⟨ws, hencode, hcodes⟩ := h.instrs
  refine ⟨_, hencode, fun space => ?_⟩
  rw [← append_nil (b.references space)]
  exact (hcodes.refers hl space).append (.silent (by cases space <;> rfl))

theorem Emits.bodies_refer (he : r.Emits out bodies extra names) (hl : r.numbering.Indexes) :
    Forall₂ (fun id body => ∃ f b ws, r.funcs[id]? = some f ∧
      f.kind = .defined b ∧ encodeInstrs ws = .ok body.code ∧
        ∀ space, Refers r.numbering space (b.references space) ws) r.definedFuncs out.code := by
  rw [he.code, forall₂_map_right_iff]
  refine he.functions.imp ?_
  rintro id body ⟨f, b, hf, hb, -, -, hbody⟩
  obtain ⟨ws, hencode, hrefers⟩ := hbody.refers hl
  exact ⟨f, b, ws, hf, hb, hencode, hrefers⟩

theorem exportToWire_denotes {l : Numbering} (hl : l.Indexes) {e f : Wire.Export} {x : Export}
    (hx : Exported p e x) (h : exportToWire l x = .ok f) : f.name = e.name ∧ f.kind = e.kind ∧
      ∀ space : Space, e.kind = space.code → Denotes (l.order space) f.index e.index.toNat := by
  have hone (found : Space) (hkind : e.kind = found.code) (h : (do
        let index ← index (l.order found) e.index.toNat
        pure (⟨e.name, found.code, index⟩ : Wire.Export)) = .ok f) : f.name = e.name ∧
      f.kind = e.kind ∧ ∀ space : Space, e.kind = space.code →
        Denotes (l.order space) f.index e.index.toNat := by
    obtain ⟨index, hindex, h⟩ := of_bind h
    cases h
    refine ⟨rfl, hkind.symm, fun space hspace => ?_⟩
    obtain rfl : found = space := Space.code_injective (hkind.symm.trans hspace)
    exact hl.denotes found hindex
  cases hx with
  | func hkind _ => exact hone .func hkind h
  | table hkind _ => exact hone .table hkind h
  | tag hkind _ => exact hone .tag hkind h
  | other hfunc htable htag =>
    cases h
    refine ⟨rfl, rfl, fun space hspace => ?_⟩
    cases space with
    | func => exact absurd hspace hfunc
    | table => exact absurd hspace htable
    | tag => exact absurd hspace htag

theorem ReadFrom.export_written (hread : ReadFrom m p q s tables exports) (h : p.Keeps r)
    (hl : r.numbering.Indexes) (he : r.Emits out bodies extra names) {e : Wire.Export}
    (hget : m.exports[i]? = some e) : ∃ f, out.exports[i]? = some f ∧ f.name = e.name ∧
      f.kind = e.kind ∧ ∀ space : Space, e.kind = space.code →
        Denotes (r.numbering.order space) f.index e.index.toNat := by
  obtain ⟨x, hx, hexported⟩ := forall₂_getElem? hread.assembles.exported hget
  rw [← hread.exports_eq] at hx
  obtain ⟨f, hf, hwritten⟩ :=
    forall₂_getElem? (mapM_eq_ok_iff.mp he.exports) (getElem?_of_isPrefix h.exports hx)
  exact ⟨f, hf, exportToWire_denotes hl hexported hwritten⟩

theorem Emits.element_funcs (he : r.Emits out bodies extra names) (hl : r.numbering.Indexes) :
    Forall₂ (fun e f => Forall₂ (fun n k => Denotes r.numbering.funcs k n.toNat) e.funcs
      f.funcs) r.elements out.elements := by
  refine zipIdx_mapM_eq_ok he.elements fun i e found hfound => ?_
  obtain ⟨funcs, hfuncs, hfound⟩ := of_bind (emitting_eq_ok_iff.mp hfound)
  obtain ⟨exprs, -, hfound⟩ := of_bind hfound
  cases hfound
  refine (mapM_eq_ok_iff.mp hfuncs).imp fun n k hk => hl.denotes .func ?_
  split at hk
  next hlt =>
    cases hk
    exact if_pos hlt
  next => cases hk

theorem Emits.start_denotes (he : r.Emits out bodies extra names) (hl : r.numbering.Indexes)
    {start : Option UInt32} (hstart : r.start = start.map UInt32.toNat) :
    Option.Rel (fun n k => Denotes r.numbering.funcs k n.toNat) start out.start := by
  have h := he.start
  unfold startIndex at h
  rw [hstart] at h
  cases start with
  | none =>
    rw [← pure_eq_ok_iff.mp h]
    exact .none
  | some n =>
    obtain ⟨k, hk, h⟩ := map_eq_ok_iff.mp h
    rw [← h]
    exact .some (hl.denotes .func hk)

end Read

/-- Functions and tags are referred to by the same identifiers in `out`, which `r` is written as, and
in `m`, which was read as `p`. -/
structure KeepsReferences (m : Wire.Module) (p r : Program) (out : Wire.Module) : Prop where
  /-- In what was read, identifiers are indices. -/
  ids : ∀ space, p.numbering.order space = List.range (p.count space)
  /-- In what is written, entities have the indices that the order gives them. -/
  lowered : r.LoweredTo out
  code : ∀ (i : Nat) code, m.code[i]? = some code → ∃ body is js, out.code[i]? = some body ∧
    decodeInstrs code.code = .ok is ∧ decodeInstrs body.code = .ok js ∧
      ∀ space, space ≠ .table → List.Forall₂ (Reference.Moves (r.numbering.order space))
        (references space is) (references space js)
  bodies : List.Forall₂ (fun id body => ∃ f b ws, r.funcs[id]? = some f ∧ f.kind = .defined b ∧
    encodeInstrs ws = .ok body.code ∧ ∀ space, Refers r.numbering space (b.references space) ws)
    r.definedFuncs out.code
  exports : ∀ (i : Nat) e, m.exports[i]? = some e → ∃ f, out.exports[i]? = some f ∧
    f.name = e.name ∧ f.kind = e.kind ∧ ∀ space : Space, e.kind = space.code →
      Denotes (r.numbering.order space) f.index e.index.toNat
  start : Option.Rel (fun n k => Denotes r.numbering.funcs k n.toNat) m.start out.start
  elements : List.Forall₂ (fun e f => List.Forall₂ (fun n k => Denotes r.numbering.funcs k n.toNat)
    e.funcs f.funcs) m.elements out.elements

/-- Whatever is added to a module that was read: calls and references to functions, throws and
handlers, exports, the start function and segments name the same functions and tags as before, and
the bodies that were added name those that they were built with. -/
theorem references_kept {m out : Wire.Module} {p r : Program} {issued : List Binding}
    (hp : ofModule m = .ok p) (h : Reaches p issued r) (hout : r.toModule = .ok out)
    (hn : ∀ space, r.count space ≤ 2 ^ 32) : KeepsReferences m p r out := by
  obtain ⟨q, s, tables, exports, hread⟩ := ofModule_eq_ok hp
  obtain ⟨bodies, extra, names, he⟩ := toModule_eq_ok_iff.mp hout
  have hkeeps := h.keeps
  have hpaired := h.paired hread.paired
  have hl : r.numbering.Indexes := fun space => ⟨_, hn space, hpaired.order_perm space⟩
  obtain ⟨hstart, helements⟩ : r.start = m.start.map UInt32.toNat ∧ r.elements = m.elements := by
    rw [h.rest, hread.parts]
    exact ⟨rfl, rfl⟩
  constructor
  · exact hread.ordered.order_range
  · exact he.loweredTo hpaired (h.carriesOthers hread.carriesOthers)
  · intro i code hcode
    obtain ⟨body, is, js, hbody, his, hjs, hall⟩ := hread.code_written hkeeps hpaired he hcode
    refine ⟨body, is, js, hbody, his, hjs, fun space hspace => ?_⟩
    obtain ⟨hplaced, hlt⟩ := hall space
    rw [hplaced, forall₂_map_right_iff, forall₂_same]
    intro x hx
    have hbulk : isBulk space x = false := by simp [isBulk, hspace]
    rw [place, if_neg (by simp [hbulk])]
    have hcount := Nat.lt_of_lt_of_le (hlt x hx hbulk) (hkeeps.count_le space)
    exact .index (denotes_indexIn (hpaired.order_perm space) (hn space) hcount)
  · exact he.bodies_refer hl
  · exact fun i e hget => hread.export_written hkeeps hl he hget
  · exact he.start_denotes hl hstart
  · exact helements ▸ he.element_funcs hl

/-- A function that calls itself, refers to itself, and throws and catches a tag of the module; it
starts the module, is exported with the tag, and stands in a table. -/
def entangled : Wire.Module where
  types := [⟨[], [], [], []⟩]
  imports := [⟨"host", "first", .func 0⟩, ⟨"host", "signal", .tag (some ⟨0, 0⟩)⟩]
  funcs := [0]
  tables := [⟨0x70, none, ⟨2, none, false, false⟩, []⟩]
  tags := [⟨0, 0⟩]
  exports := [⟨"run", 0, 1⟩, ⟨"raised", 4, 1⟩]
  start := some 1
  elements := [⟨0, 0, [0x41, 0x00, 0x0B], 0, 0, none, [1, 0], []⟩]
  code := [⟨[], [0x10, 0x01, 0x1F, 0x40, 0x01, 0x00, 0x01, 0x00, 0x08, 0x01, 0x0B, 0x06, 0x40,
    0xD2, 0x01, 0x1A, 0x07, 0x01, 0x12, 0x00, 0x0B, 0x0B]⟩]

/-- Calls of what was there and of what is added, and a throw. -/
def entangledCaller : Body :=
  { seqs := [⟨.multi 0, [.call 1, .block 1, .throw 1]⟩, ⟨.empty, [.call 2, .throw 2]⟩] }

/-- One more import of each sort, and a function that is built. -/
def entangle (p : Program) : Program :=
  let q := (p.importFunction "host" "second" 0).2
  let r := (q.importTag "host" "other" 0).2
  { r with funcs := r.funcs ++ [⟨[], 0, .defined entangledCaller⟩] }

theorem entangle_reached (p : Program) : ∃ issued, Reaches p issued (entangle p) := by
  have hnone : Reaches p [] p := .start
  have hfunc := hnone.add (.importFunction "host" "second" 0 rfl)
  have htag := hfunc.add (.importTag "host" "other" 0 rfl)
  exact ⟨_, htag.add (.define [] 0 [] entangledCaller rfl rfl)⟩

theorem entangled_kept : ∃ p out issued, ofModule entangled = .ok p ∧
    Reaches p issued (entangle p) ∧ (entangle p).toModule = .ok out ∧
    (entangle p).numbering = ⟨[0, 2, 1, 3], [0], [0, 2, 1]⟩ ∧
    KeepsReferences entangled p (entangle p) out := by
  have hrun : ((ofModule entangled).toOption.any fun p =>
      ((entangle p).toModule.toOption.any fun _ => true) &&
        ((entangle p).numbering == ⟨[0, 2, 1, 3], [0], [0, 2, 1]⟩ &&
          (p.funcs.length == 2 && (p.tables.length == 1 && p.tags.length == 2)))) = true := by
    decide +kernel
  obtain ⟨p, hp, hrun⟩ := any_toOption_iff.mp hrun
  simp only [Bool.and_eq_true, beq_iff_eq] at hrun
  obtain ⟨hout, hnumbering, hfuncs, htables, htags⟩ := hrun
  obtain ⟨out, hout, -⟩ := any_toOption_iff.mp hout
  obtain ⟨issued, hreached⟩ := entangle_reached p
  refine ⟨p, out, issued, hp, hreached, hout, hnumbering,
    references_kept hp hreached hout fun space => ?_⟩
  cases space with
  | func => simp [count, entangle, importFunction, importTag, hfuncs]
  | table => simp [count, entangle, importFunction, importTag, htables]
  | tag => simp [count, entangle, importFunction, importTag, htags]

end Program

end HostCatch
