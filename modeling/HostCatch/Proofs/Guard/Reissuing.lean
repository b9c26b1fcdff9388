import HostCatch.Proofs.Guard.Recrafting
import HostCatch.Proofs.Program.Reopening

namespace HostCatch

open List

namespace Program

/-- What is read once a program with wrappers is written: its functions with new links, then the
wrappers, with the same calls. The first `k` tags are imported ones. -/
structure Reissued (p r : Program) (o : Outcome) (k : Nat) (new : Option TagImport)
    (more : List Function) (extra : List ValType) (others : List NameSubsection) : Prop where
  rest : r = { p with
    types := o.program.typesWith extra
    funcs := r.funcs
    tags := p.tags.take k ++ (new.map fun t => ⟨t.type, 0, some p.imports.length⟩).toList ++
      p.tags.drop k
    imports := p.imports ++ (new.map fun t => ⟨t.module, t.name, .tag k⟩).toList
    exports := p.exports.map (Export.retag (shiftTag k new.toList.length))
    locals := r.locals
    names := others }
  locals : p.locals <+: r.locals
  length : r.funcs.length = p.funcs.length + more.length
  kept : ∀ (id : FuncId) f, p.funcs[id]? = some f →
    r.funcs[id]? = some (f.relink (o.wrappers.redirect id) (shiftTag k new.toList.length))
  added : ∀ n g, more[n]? = some g → ∃ b c,
    r.funcs[p.funcs.length + n]? = some { g with kind := .defined b } ∧ g.kind = .defined c ∧
      ∀ callee, b.Calls callee ↔ c.Calls callee

section Written

variable {m out : Wire.Module} {p q s : Program} {tables : List Table} {exports : List Export}
variable {o : Outcome} {tag : TagId} {handles : Handles} {new : Option TagImport}
variable {types : List Signature} {more : List Function} {extra : List ValType}
variable {names : List Wire.Custom} {old added : List (UInt32 × Wire.FuncBody)}
variable (hx : p.Rewrapped o tag handles new types more) (hr : ReadFrom m p q s tables exports)
variable (hw : Rewrites m p o.program q o.wrappers.redirect new more extra old added)

include hw in
theorem Rewrites.writes {n : Nat} (hn : n < more.length) : ∃ body u v, added[n]? = some body ∧
    (o.program.emitFunction o.program.numbering (p.funcs.length + n)).run u = .ok (body, v) ∧
    v <+: extra := by
  have hall := (run_mapM_grows (fun id _ => o.program.emitFunction_grows _ id) hw.more).2
  have hfunc : (List.range' p.funcs.length more.length)[n]? = some (p.funcs.length + n) := by
    rw [getElem?_range' hn, Nat.one_mul]
  obtain ⟨body, hbody, u, v, hrun, hv⟩ := forall₂_getElem? hall hfunc
  exact ⟨body, u, v, hbody, hrun, hv⟩

variable {κ : FuncId → FuncId → FuncId} {p' : Program} {others : List NameSubsection}

theorem Altered.receives (ha : p.Altered p' κ new types more) (hr : ReadFrom m p q s tables exports)
    (he : p'.Emits out (old ++ added) extra names) (hw : Rewrites m p p' q κ new more extra old added) :
    Receives p' (rebuilt (q.reread p' new extra out tables exports others) κ (q.retagging new)
      (more.map Function.bare) p) extra := by
  obtain ⟨-, htables, htags⟩ := ha.reassembled_length hr he hw
  refine ⟨rfl, ?_, htables.trans (congrArg List.length ha.tables_eq).symm, htags⟩
  simp [rebuilt, ha.funcs_length]

theorem Receives.bodied {r r' : Program} (h : Receives p' r extra) (hr : Bodied r r') :
    Receives p' r' extra := by
  refine ⟨?_, hr.length.trans h.funcs, ?_, ?_⟩
  · rw [hr.rest]
    exact h.types
  · rw [hr.rest]
    exact h.tables
  · rw [hr.rest]
    exact h.tags

theorem rebuilt_getElem?_more (r u : Program) (κ : FuncId → FuncId → FuncId) (τ : TagId → TagId)
    {n : Nat} {g : Function} (hg : more[n]? = some g) :
    (rebuilt r κ τ (more.map Function.bare) u).funcs[u.funcs.length + n]? = some g.bare := by
  rw [rebuilt, getElem?_append_right (by simp), length_mapIdx, Nat.add_sub_cancel_left,
    getElem?_map, hg, Option.map_some]

theorem Bodied.typeOf_of_getElem? {r r' : Program} (h : Bodied r r') {func : FuncId} {f : Function}
    (hf : r.funcs[func]? = some f) : r'.typeOf func = f.type := by
  rw [h.typeOf, Program.typeOf, hf]
  rfl

section Added

variable {r : Program} (hr₀ : ∀ n g, more[n]? = some g → r.funcs[p.funcs.length + n]? = some g.bare)
variable (hreceives : Receives o.program r extra) (hsize : r.types.length < 2 ^ 31)
variable (hsmall : o.program.Small names) (hknown : ∀ t ∈ o.program.types, t.IsKnown)
variable (hlengths : ∀ body ∈ added, body.2.code.length < 2 ^ 32)

include hx hr hw hr₀ hreceives hsize hsmall hknown hlengths

/-- The code of each wrapper reads as a body with the same calls. -/
theorem Rewrapped.code_reads {n : Nat} {body : UInt32 × Wire.FuncBody} (hbody : added[n]? = some body)
    {r' : Program} (hbodied : Bodied r r') (start : Nat) : Lasting body.2 ∧
      ∃ g c declared b, more[n]? = some g ∧ g.kind = .defined c ∧
        r'.ReadsBody (p.funcs.length + n) start body.2 declared b ∧
        ∀ callee, b.Calls callee ↔ c.Calls callee := by
  have hlength := (hx.altered.added hw).length_eq
  have hn : n < more.length := hlength ▸ lt_of_getElem? hbody
  have hg := getElem?_eq_getElem hn
  obtain ⟨body', u, v, hbody', hrun, hv⟩ := hw.writes hn
  cases hbody.symm.trans hbody'
  obtain ⟨id, recipe, defaults, seqs, -, hc⟩ := hx.crafted n _ hg
  obtain ⟨-, -, hemit⟩ := emitFunction_eq_ok ((hx.altered.funcs_added n).trans hg) hc.kind hrun
  have hsize' : r'.types.length < 2 ^ 31 := by
    rw [hbodied.rest]
    exact hsize
  obtain ⟨hlasting, declared, b, hread, hcalls⟩ := Crafted.readsBody hx.altered hr.ordered
    (hx.altered.paired hr.paired) hsmall hknown hc (.of_run hemit hv) (hlengths _ (mem_of_getElem? hbody))
    (hreceives.bodied hbodied) hsize' (hbodied.typeOf_of_getElem? (f := more[n].bare) (hr₀ n _ hg)) start
  exact ⟨hlasting, _, _, declared, b, hg, hc.kind, hread, hcalls⟩

theorem Rewrapped.takeBodies : ∃ r', foldNumbered
    (fun r i code => r.takeBody (p.funcs.length + i) code) r (added.map Prod.snd) = .ok r' := by
  refine foldlM_exists (motive := Bodied r) ⟨rfl, rfl⟩ ?_
  rintro ⟨code, n⟩ hcode u hu
  have hcode := mk_mem_zipIdx_iff_getElem?.mp hcode
  rw [getElem?_map] at hcode
  obtain ⟨body, hbody, rfl⟩ := Option.map_eq_some_iff.mp hcode
  obtain ⟨-, g, c, declared, b, -, -, hread, -⟩ :=
    hx.code_reads hr hw hr₀ hreceives hsize hsmall hknown hlengths hbody hu u.locals.length
  exact ⟨_, takeBody_eq_ok_iff.mpr ⟨_, b, hread, rfl⟩, hu.setBody _ _ _⟩

/-- So do the codes of all of them, one behind the other. -/
theorem Rewrapped.bodies {r' : Program} (h : foldNumbered
    (fun r i code => r.takeBody (p.funcs.length + i) code) r (added.map Prod.snd) = .ok r') :
    r.BodiesRead p.funcs.length (added.map Prod.snd) more.length r' ∧
      ∀ n g, more[n]? = some g → ∃ b c,
        r'.funcs[p.funcs.length + n]? = some { g with kind := .defined b } ∧ g.kind = .defined c ∧
        ∀ callee, b.Calls callee ↔ c.Calls callee := by
  have hlength : (added.map Prod.snd).length = more.length := by
    rw [length_map, (hx.altered.added hw).length_eq]
  have hbodies := takeBodies_eq_ok (by rw [hlength, hreceives.funcs, hx.altered.funcs_length]) h
  rw [hlength] at hbodies
  refine ⟨hbodies, fun n g hg => ?_⟩
  have hn := lt_of_getElem? hg
  obtain ⟨body, -, -, hbody, -⟩ := hw.writes hn
  have hcode : (added.map Prod.snd)[n]? = some body.2 := by
    rw [getElem?_map, hbody, Option.map_some]
  obtain ⟨start, declared, b, f, hf, hkind, hread, -⟩ := hbodies.bodies n body.2 hn hcode
  obtain ⟨-, g', c, declared', b', hg', hc, hread', hcalls⟩ :=
    hx.code_reads hr hw hr₀ hreceives hsize hsmall hknown hlengths hbody ⟨rfl, rfl⟩ start
  cases hg.symm.trans hg'
  obtain ⟨rfl, rfl⟩ := hread.unique hread'
  refine ⟨_, c, ?_, hc, hcalls⟩
  -- the body is new, and names and types are those from before
  have hheads := congrArg (·[p.funcs.length + n]?) hbodies.heads
  simp only [getElem?_map, hf, hr₀ n g hg, Option.map_some, Option.some.injEq,
    Prod.mk.injEq] at hheads
  rw [hf, ← hkind]
  obtain ⟨name, type, kind⟩ := f
  obtain ⟨rfl, rfl⟩ := hheads
  rfl

end Added

theorem Rewrites.lasting (hr : ReadFrom m p q s tables exports)
    (hw : Rewrites m p p' q κ new more extra old added) : ∀ body ∈ old, Lasting body.2 := by
  intro body hmem
  obtain ⟨i, hi⟩ := getElem?_of_mem hmem
  have hlt : i < m.code.length := hw.length ▸ lt_of_getElem? hi
  obtain ⟨start, declared, b, f, -, -, hread, -⟩ := hr.body (getElem?_eq_getElem hlt)
  exact hread.lasting (hw.recoded i _ body (getElem?_eq_getElem hlt) hi)

theorem ReadFrom.tags_eq (hr : ReadFrom m p q s tables exports) :
    p.tags.take q.tags.length = q.tags ∧ p.tags.drop q.tags.length = m.tags.map tagged := by
  have htags : p.tags = q.tags ++ m.tags.map tagged := by
    rw [hr.parts]
    rfl
  rw [htags]
  exact ⟨take_left, drop_left⟩

theorem ReadFrom.tags_length_le (hr : ReadFrom m p q s tables exports) :
    q.tags.length ≤ p.tags.length := by
  rw [hr.parts]
  simp [assembled]

theorem takeBodies_locals {r r' : Program} {first : Nat} {codes : List Wire.FuncBody}
    (h : foldNumbered (fun r i code => r.takeBody (first + i) code) r codes = .ok r') :
    r.locals <+: r'.locals := by
  refine foldNumbered_induction (motive := fun _ u => r.locals <+: u.locals) h prefix_rfl ?_
  intro i code u v _ hu hv
  obtain ⟨declared, b, -, rfl⟩ := takeBody_eq_ok_iff.mp hv
  rw [setBody, append_assoc]
  exact hu.trans (prefix_append _ _)

/-- The module written for an outcome reads as its program again. -/
theorem ReadFrom.reissued (hr : ReadFrom m p q s tables exports) (hm : m.Proper)
    (hapart : p.NamesApart) (hlocals : p.locals.length < 2 ^ 32)
    (hx : p.Rewrapped o tag handles new types more) (hout : o.program.toModule = .ok out)
    {bytes : Bytes} (hbytes : out.encode = .ok bytes) (hlength : bytes.length < 2 ^ 32) :
    ∃ r bodies extra others, Wire.Module.decode bytes = .ok out.reread ∧
      ofModule out.reread = .ok r ∧
      o.program.Emits out bodies extra (nameCustoms others (namesFrom 0 o.program.funcs)) ∧
      o.program.Small (nameCustoms others (namesFrom 0 o.program.funcs)) ∧
      Forall₂ (Refollows o.program.numbering) p.names others ∧
      (∀ body ∈ bodies, Lasting body.2) ∧
      Reissued p r o q.tags.length new more extra others := by
  have ha := hx.altered
  obtain ⟨bodies, extra, names, he⟩ := toModule_eq_ok_iff.mp hout
  obtain ⟨old, added, rfl, hw⟩ := ha.rewrites hr
    (fun f hf b hkind => (hr.locals_length_le f hf b hkind).trans_lt hlocals) he
  have hsmall := ha.small hr he hbytes hlength
  have hknown : ∀ t ∈ o.program.types, t.IsKnown := by
    intro t ht
    rw [ha.types_eq] at ht
    exact (mem_append.mp ht).elim (hr.typesKnown t) (ha.known t)
  have hextra := he.extra_known
  obtain ⟨others, hothers, rfl, hread⟩ := ha.ofModule_reread hr hm he hw hapart hextra hsmall.types
    hsmall.funcs hsmall.tags hsmall.names
  set r₀ := rebuilt (q.reread o.program new extra out tables exports others) o.wrappers.redirect
    (q.retagging new) (more.map Function.bare) p with hr₀
  have hfound : ∀ n g, more[n]? = some g → r₀.funcs[p.funcs.length + n]? = some g.bare := fun n g hg =>
    rebuilt_getElem?_more _ _ _ _ hg
  have hreceives : Receives o.program r₀ extra := ha.receives hr he hw
  have hsize : r₀.types.length < 2 ^ 31 := by
    have htypes := (Wire.Module.within_encode he.typeDefs hbytes).types
    rw [he.types, length_map] at htypes
    rw [hreceives.types, typesWith]
    omega
  have hlengths : ∀ body ∈ added, body.2.code.length < 2 ^ 32 := by
    intro body hbody
    refine Wire.Module.code_length_lt he.typeDefs hbytes hlength _ ?_
    rw [he.code]
    exact mem_map_of_mem (mem_append_right _ hbody)
  obtain ⟨r, hfold⟩ := hx.takeBodies hr hw hfound hreceives hsize hsmall hknown hlengths
  obtain ⟨hbodies, hadded⟩ := hx.bodies hr hw hfound hreceives hsize hsmall hknown hlengths hfold
  refine ⟨r, _, extra, others, ?_, hread.trans hfold, he, hsmall, hothers, ?_, ?_, ?_, ?_, ?_, hadded⟩
  · exact Wire.Module.decode_encode (ha.coded hr hm he hsmall.types hsmall.tags) hbytes hlength
  · intro body hbody
    rcases mem_append.mp hbody with hbody | hbody
    · exact hw.lasting hr body hbody
    · obtain ⟨n, hn⟩ := getElem?_of_mem hbody
      exact (hx.code_reads hr hw hfound hreceives hsize hsmall hknown hlengths hn ⟨rfl, rfl⟩ 0).1
  · have hcustoms : o.program.customs = p.customs := by rw [ha.carried]
    refine hbodies.rest.trans ?_
    rw [hr₀, rebuilt, Program.reread, ha.reassembled_eq hr he, hr.tags_eq.1, hr.tags_eq.2, hcustoms]
    rfl
  · have hgrown : r₀.locals <+: r.locals := takeBodies_locals hfold
    exact hgrown
  · rw [hbodies.length, hreceives.funcs, ha.funcs_length]
  · intro id f hf
    have hlt := lt_of_getElem? hf
    rw [hbodies.untouched id (.inl hlt), hr₀, rebuilt, getElem?_append_left (by simpa using hlt),
      getElem?_mapIdx, hf]
    rfl

end Written

end Program

end HostCatch
