import HostCatch.Proofs.Guard.Rewriting
import HostCatch.Proofs.Guard.Settling

namespace HostCatch

open List

namespace Instr

variable (κ : FuncId → FuncId) (τ : TagId → TagId) (i : Instr)

theorem children_redirect : (i.redirect κ).children = i.children := by
  cases i <;> rfl

theorem children_retag : (i.retag τ).children = i.children := by
  cases i <;> simp [retag, children, Function.comp_def, Handler.retag]

theorem callee?_retag : (i.retag τ).callee? = i.callee? := by
  cases i <;> rfl

theorem retag_eq_call_iff {func : FuncId} : i.retag τ = .call func ↔ i = .call func := by
  cases i <;> simp [retag]

end Instr

namespace Body

variable (b : Body) (κ : FuncId → FuncId) (τ : TagId → TagId)

theorem instr?_relink (seq : SeqId) (index : Nat) :
    (b.relink κ τ).instr? seq index = ((b.redirect κ).instr? seq index).map (Instr.retag τ) := by
  unfold instr? relink redirect
  rw [getElem?_map, getElem?_map]
  cases b.seqs[seq]? with
  | none => rfl
  | some s =>
    have hinstr : Instr.relink κ τ = Instr.retag τ ∘ Instr.redirect κ := rfl
    simp [Seq.relink, Seq.redirect, hinstr]

theorem instr?_redirect (seq : SeqId) (index : Nat) :
    (b.redirect κ).instr? seq index = (b.instr? seq index).map (Instr.redirect κ) := by
  unfold instr? redirect
  rw [getElem?_map]
  cases b.seqs[seq]? with
  | none => rfl
  | some s => simp [Seq.redirect]

theorem reaches_relink_iff {seq : SeqId} :
    (b.relink κ τ).Reaches seq ↔ (b.redirect κ).Reaches seq := by
  constructor
  · refine reachesFrom_of_children fun seq index i hi => ?_
    rw [instr?_relink] at hi
    obtain ⟨j, hj, rfl⟩ := Option.map_eq_some_iff.mp hi
    exact ⟨j, hj, (j.children_retag τ).symm⟩
  · refine reachesFrom_of_children fun seq index i hi => ?_
    exact ⟨i.retag τ, by rw [instr?_relink, hi, Option.map_some], i.children_retag τ⟩

theorem reaches_redirect {seq : SeqId} (h : b.Reaches seq) : (b.redirect κ).Reaches seq := by
  refine reachesFrom_of_children (fun seq index i hi => ?_) h
  exact ⟨i.redirect κ, by rw [instr?_redirect, hi, Option.map_some], i.children_redirect κ⟩

theorem calls_relink_iff {func : FuncId} :
    (b.relink κ τ).Calls func ↔ (b.redirect κ).Calls func := by
  simp only [Calls, reaches_relink_iff, instr?_relink, Option.map_eq_some_iff,
    Instr.retag_eq_call_iff, exists_eq_right]

variable {b κ}

theorem Quiet.relink {t : Targets} (h : (b.redirect κ).Quiet t) : (b.relink κ τ).Quiet t := by
  intro seq index i func hreach hi hcallee
  rw [instr?_relink] at hi
  obtain ⟨j, hj, rfl⟩ := Option.map_eq_some_iff.mp hi
  rw [Instr.callee?_retag] at hcallee
  exact h seq index j func ((reaches_relink_iff b κ τ).mp hreach) hj hcallee

end Body

namespace Program

variable {handles : Handles} {types : List Signature}

/-- The tag is found again in what was written. -/
theorem Reissued.existingTag {p r : Program} {o : Outcome} {k : Nat} {new : Option TagImport}
    {more : List Function} {extra : List ValType} {others : List NameSubsection}
    (h : Reissued p r o k new more extra others) {tag : TagId}
    (hp : p.Provides tag types new) (hold : p.types <+: r.types) (htypes : types <+: r.types)
    (hk : k ≤ p.tags.length) : ∃ tag', r.existingTag = .ok (some tag') := by
  cases hp with
  | found hfound =>
    refine ⟨tag, existingTag_grow hfound ?_ ?_ hold⟩
    · rw [h.rest]
      simp
    · rw [h.rest]
      simp
  | @imported type hnone _ htype =>
    refine ⟨k, existingTag_eq_some_iff.mpr ⟨?_, ?_⟩⟩
    · rw [h.rest, find?_append, existingTag_eq_none_iff.mp hnone]
      simp [Import.tag?]
    · have htag : r.tags[k]? = some ⟨type, 0, some p.imports.length⟩ := by
        rw [h.rest]
        simp [hk]
      rw [htag, Option.bind_some]
      exact getElem?_of_isPrefix htypes htype

theorem IsWrapper.transfer {p q : Program} {id : FuncId} {callee : Function}
    (hp : p.funcs[id]? = some callee) (hq : q.funcs[id]? = some callee)
    (hentry : q.importOf? id = p.importOf? id) {f g : Function} (hname : g.name = f.name)
    (hcalls : ∀ b, f.kind = .defined b → b.Calls id → ∃ c, g.kind = .defined c ∧ c.Calls id)
    (h : p.IsWrapper f id) : q.IsWrapper g id := by
  obtain ⟨b, callee', hb, hcall, hcallee, himported, hf⟩ := h
  cases hp.symm.trans hcallee
  obtain ⟨c, hc, hcall⟩ := hcalls b hb hcall
  exact ⟨c, callee, hc, hcall, hq, himported, by rw [hname, hf, wrapperName_congr callee hentry]⟩

namespace Passage

variable {p : Program} {o : Outcome} {out : Bytes} (h : Passage p o out)

theorem types_program : o.program.types <+: h.result.types := by
  rw [h.result_types]
  exact prefix_append _ _

include h in
theorem types_source : p.types <+: o.program.types := by
  rw [h.rewrapped.altered.types_eq]
  exact prefix_append _ _

variable {id : FuncId} {f : Function}

include h in
theorem imported_source (hf : o.program.funcs[id]? = some f) (himported : f.isImported = true) :
    p.funcs[id]? = some f := by
  rcases Nat.lt_or_ge id p.funcs.length with hlt | hge
  · have hid := getElem?_eq_getElem hlt
    cases hf.symm.trans (h.rewrapped.altered.funcs_kept hid)
    rw [hid]
    generalize p.funcs[id] = g at himported
    obtain ⟨name, type, kind⟩ := g
    cases kind with
    | imported entry => rfl
    | defined b => cases himported
  · obtain ⟨n, rfl⟩ := Nat.exists_eq_add_of_le hge
    rw [h.rewrapped.altered.funcs_added] at hf
    rw [h.rewrapped.altered.defined f (mem_of_getElem? hf)] at himported
    cases himported

theorem imported_result (hf : o.program.funcs[id]? = some f) (himported : f.isImported = true) :
    h.result.funcs[id]? = some f := by
  rw [h.reissued.kept id f (h.imported_source hf himported)]
  obtain ⟨name, type, kind⟩ := f
  cases kind with
  | imported entry => rfl
  | defined b => cases himported

theorem importOf?_result (hf : o.program.funcs[id]? = some f) (himported : f.isImported = true) :
    h.result.importOf? id = o.program.importOf? id := by
  obtain ⟨entry, hentry⟩ := Option.isSome_iff_exists.mp himported
  obtain ⟨i, hi, -⟩ := h.read.paired.funcs.entry (h.imported_source hf himported) hentry
  have hresult : h.result.imports[entry]? = some i := by
    rw [h.reissued.rest]
    exact getElem?_append_some _ hi
  have hprogram : o.program.imports[entry]? = some i := by
    rw [h.rewrapped.altered.imports_eq]
    exact getElem?_append_some _ hi
  simp [importOf?, hf, h.imported_result hf himported, hentry, hresult, hprogram]

section Recognized

variable {flagged : List FuncId} {tag : TagId}
variable (hsettled : o.program.Settled flagged tag o.wrappers)

include hsettled in
theorem mem_flagged {w : FuncId} (hw : (id, w) ∈ o.wrappers) : id ∈ flagged :=
  hsettled.keys ▸ mem_map_of_mem hw

include hsettled in
/-- A function from before wraps an import if and only if it does so once it is written. -/
theorem isWrapper_kept_iff (hid : id ∈ flagged) {w : FuncId} (hf : p.funcs[w]? = some f) :
    h.result.IsWrapper (f.relink (o.wrappers.redirect w)
        (shiftTag h.imported.tags.length h.new.toList.length)) id ↔
      o.program.IsWrapper (f.redirect (o.wrappers.redirect w)) id := by
  obtain ⟨callee, hcallee, himported⟩ := hsettled.imported id hid
  have hresult := h.imported_result hcallee himported
  have hentry := h.importOf?_result hcallee himported
  obtain ⟨name, type, kind⟩ := f
  cases kind with
  | imported entry =>
    constructor <;>
    · rintro ⟨_, _, hkind, -⟩
      cases hkind
  | defined b =>
    constructor
    · refine IsWrapper.transfer hresult hcallee hentry.symm rfl fun c hc hcalls => ?_
      cases hc
      exact ⟨_, rfl, (Body.calls_relink_iff b _ _).mp hcalls⟩
    · refine IsWrapper.transfer hcallee hresult hentry rfl fun c hc hcalls => ?_
      cases hc
      exact ⟨_, rfl, (Body.calls_relink_iff b _ _).mpr hcalls⟩

include hsettled in
theorem isWrapper_added_iff (hid : id ∈ flagged) {n : Nat} {g : Function} (hg : h.more[n]? = some g)
    (hf : h.result.funcs[p.funcs.length + n]? = some f) :
    h.result.IsWrapper f id ↔ o.program.IsWrapper g id := by
  obtain ⟨callee, hcallee, himported⟩ := hsettled.imported id hid
  have hresult := h.imported_result hcallee himported
  have hentry := h.importOf?_result hcallee himported
  obtain ⟨b, c, hb, hc, hcalls⟩ := h.reissued.added n g hg
  cases hf.symm.trans hb
  constructor
  · refine IsWrapper.transfer hresult hcallee hentry.symm rfl fun d hd hcall => ?_
    cases hd
    exact ⟨c, hc, (hcalls id).mp hcall⟩
  · refine IsWrapper.transfer hcallee hresult hentry rfl fun d hd hcall => ?_
    cases hc.symm.trans hd
    exact ⟨b, rfl, (hcalls id).mpr hcall⟩

include hsettled in
theorem isWrapper_program (hid : id ∈ flagged) {w : FuncId} (hf : h.result.funcs[w]? = some f)
    (hwrapper : h.result.IsWrapper f id) :
    ∃ g, o.program.funcs[w]? = some g ∧ o.program.IsWrapper g id := by
  rcases Nat.lt_or_ge w p.funcs.length with hlt | hge
  · have hw := getElem?_eq_getElem hlt
    cases hf.symm.trans (h.reissued.kept w _ hw)
    exact ⟨_, h.rewrapped.altered.funcs_kept hw, (h.isWrapper_kept_iff hsettled hid hw).mp hwrapper⟩
  · obtain ⟨n, rfl⟩ := Nat.exists_eq_add_of_le hge
    have hn : n < h.more.length := by
      have hlt := lt_of_getElem? hf
      rw [h.reissued.length] at hlt
      exact Nat.lt_of_add_lt_add_left hlt
    have hg := getElem?_eq_getElem hn
    exact ⟨_, (h.rewrapped.altered.funcs_added n).trans hg,
      (h.isWrapper_added_iff hsettled hid hg hf).mp hwrapper⟩

include hsettled in
/-- Wrappers are wrappers still, once they are written and read. -/
theorem isWrapper_result {w : FuncId} (hw : (id, w) ∈ o.wrappers) :
    ∃ f, h.result.funcs[w]? = some f ∧ h.result.IsWrapper f id := by
  have hid := mem_flagged hsettled hw
  obtain ⟨⟨g, hg, hwrapper⟩, -⟩ := hsettled.recognized id w hw
  rcases Nat.lt_or_ge w p.funcs.length with hlt | hge
  · have hf := getElem?_eq_getElem hlt
    cases hg.symm.trans (h.rewrapped.altered.funcs_kept hf)
    exact ⟨_, h.reissued.kept w _ hf, (h.isWrapper_kept_iff hsettled hid hf).mpr hwrapper⟩
  · obtain ⟨n, rfl⟩ := Nat.exists_eq_add_of_le hge
    rw [h.rewrapped.altered.funcs_added] at hg
    obtain ⟨b, -, hf, -⟩ := h.reissued.added n g hg
    exact ⟨_, hf, (h.isWrapper_added_iff hsettled hid hg hf).mpr hwrapper⟩

include hsettled in
/-- What was written and read has nothing left to do. -/
theorem settled (_ : h.handles.alloc ∉ flagged) (_ : h.handles.store ∉ flagged) :
    ∃ tag', h.result.Settled flagged tag' o.wrappers := by
  obtain ⟨q, u, tables, exports, hr⟩ := ofModule_eq_ok h.reread
  have htagged : p.types ++ h.types <+: h.result.types :=
    h.rewrapped.altered.types_eq ▸ h.types_program
  obtain ⟨tag', htag⟩ := h.reissued.existingTag h.rewrapped.tagged
    (h.types_source.trans h.types_program) htagged h.read.tags_length_le
  refine ⟨tag', ?_, ?_, htag, hsettled.keys, ?_, hr.wellFormed.walkable, ?_⟩
  · intro id hid
    obtain ⟨f, hf, himported⟩ := hsettled.imported id hid
    exact ⟨f, h.imported_result hf himported, himported⟩
  · intro id hid
    obtain ⟨f, hf, himported⟩ := hsettled.imported id hid
    have htype := h.read.funcTypes f (mem_of_getElem? (h.imported_source hf himported))
    exact checkResults_kept hf (Nat.lt_of_lt_of_le htype h.types_source.length_le)
      (h.imported_result hf himported) h.types_program (hsettled.results id hid)
  · intro id w hw
    refine ⟨h.isWrapper_result hsettled hw, fun w' f hlt hf hwrapper => ?_⟩
    obtain ⟨g, hg, hwrapper⟩ := h.isWrapper_program hsettled (mem_flagged hsettled hw) hf hwrapper
    exact (hsettled.recognized id w hw).2 w' g hlt hg hwrapper
  · intro id f b hf hkind hno
    rcases Nat.lt_or_ge id p.funcs.length with hlt | hge
    · have hid := getElem?_eq_getElem hlt
      cases hf.symm.trans (h.reissued.kept id _ hid)
      have hquiet := fun c hc => hsettled.quiet id _ c (h.rewrapped.altered.funcs_kept hid) hc hno
      generalize p.funcs[id] = g at hkind hquiet
      obtain ⟨name, type, kind⟩ := g
      cases kind with
      | imported entry => cases hkind
      | defined c =>
        cases hkind
        exact (hquiet _ rfl).relink _
    · have htarget := (h.framed.added id f hge hf).2
      rw [hno] at htarget
      cases htarget

end Recognized

end Passage

end Program

end HostCatch
