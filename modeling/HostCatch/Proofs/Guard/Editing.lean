import HostCatch.Proofs.Guard.Guarded
import HostCatch.Proofs.Guard.Wrapping

namespace HostCatch

open List

/-- Once everything is checked, and a tag of host exceptions that exists has its type, nothing can
fail. -/
theorem Program.guarded_exists {p : Program} (hp : p.WellFormed) {flagged : List FuncId}
    {strategy : Strategy} (hstrategy : strategy = .legacy ∨ strategy = .modern) {found : Option TagId}
    (htag : p.existingTag = .ok found)
    (himported : ∀ id ∈ flagged, ∃ f, p.funcs[id]? = some f ∧ f.isImported = true)
    (hresults : ∀ id ∈ flagged, p.checkResults id = .ok ()) (handles : Handles) :
    ∃ r, p.guarded flagged strategy handles = .ok r := by
  obtain ⟨⟨tag, q⟩, hq⟩ : ∃ r, p.hostTag = .ok r := by
    unfold hostTag
    rw [htag]
    cases found <;> exact ⟨_, rfl⟩
  have hfuncs := hostTag_funcs hq
  have htypes : p.types <+: q.types := by
    rcases (hostTag_eq_ok hp.linked hq).2 with rfl | ⟨types, type, rfl⟩
    · exact prefix_rfl
    · exact prefix_append _ _
  have hwalk : q.Walkable := by
    unfold Walkable
    rw [hfuncs]
    exact hp.walkable
  obtain ⟨existing, hexisting⟩ := existingWrappers_exists hwalk
  have hids : ∀ id ∈ flagged, ∃ f sig defaults, q.funcs[id]? = some f ∧
      q.types[f.type]? = some sig ∧ sig.results.mapM defaultValue = .ok defaults := by
    intro id hid
    obtain ⟨f, hf, -⟩ := himported id hid
    have hlt := hp.funcTypes f (mem_of_getElem? hf)
    have hsig := getElem?_eq_getElem hlt
    have hvector : .v128 ∉ p.types[f.type].results := by
      simpa [results, hsig] using (checkResults_eq_ok_iff hf).mp (hresults id hid)
    obtain ⟨defaults, hdefaults⟩ := defaults_exist (fun v hv => hp.signatures _
      (getElem_mem hlt) v (mem_append_right _ hv)) hvector
    obtain ⟨more, hmore⟩ := htypes
    refine ⟨f, _, defaults, by rw [hfuncs, hf], ?_, hdefaults⟩
    rw [← hmore, getElem?_append_left hlt, hsig]
  obtain ⟨wrappers, r, hwraps⟩ :
      ∃ wrappers r, Wraps strategy tag handles existing flagged q wrappers r :=
    Wraps.exists hstrategy hids
  obtain ⟨⟨count, s⟩, hcalls⟩ := retargetCalls_exists (hwraps.walkable hwalk) wrappers
  have hwrap := wrapAll_eq_ok_iff.mpr hwraps
  refine ⟨(⟨s, some tag, flagged, wrappers, flagged.filter (existing.get? · |>.isSome), count⟩, s),
    bind_eq_ok_iff.mpr ⟨_, liftM_fault_eq_ok_iff.mpr hq, ?_⟩⟩
  refine bind_eq_ok_iff.mpr ⟨_, liftM_abort_eq_ok_iff.mpr hexisting, ?_⟩
  refine bind_eq_ok_iff.mpr ⟨_, liftM_abort_eq_ok_iff.mpr hwrap, ?_⟩
  exact bind_eq_ok_iff.mpr ⟨_, liftM_abort_eq_ok_iff.mpr hcalls, rfl⟩

/-- A program and its metadata while a pass changes them in place. -/
structure Session where
  program : Program
  metadata : Option Metadata

/-- Steps of a pass. What was changed before a failure stays changed. -/
abbrev Edit := EStateM Failure Session

namespace Edit

variable {α β ε : Type}

def current : Edit Program := do
  pure (← get).program

/-- Something that does not change the program. -/
def check (x : Except Failure α) : Edit α :=
  match x with
  | .ok a => pure a
  | .error failure => throw failure

/-- A change that cannot fail. -/
def change (f : Program → α × Program) : Edit α :=
  modifyGet fun s => ((f s.program).1, { s with program := (f s.program).2 })

/-- The tag of host exceptions; the type and the import of a new one are two changes. -/
def hostTag : Edit TagId := do
  match ← check (liftM (← current).existingTag) with
  | some tag => pure tag
  | none =>
    let type ← change (·.addType Program.hostTagSignature)
    let (tag, _) ← change (·.importTag tagModule tagName type)
    pure tag

/-- The body of a wrapper. Types are added before the body is built. -/
def wrapperBody (strategy : Strategy) (type : TypeId) (r : Recipe) : Edit Body := do
  let start := Body.start type
  match strategy with
  | .modern =>
    let (_, body) ← check (liftM ((r.modern start.entry).run start))
    pure body
  | .legacy =>
    let handlerType ← change (·.insertType ⟨[.externRef], r.results⟩)
    let tried ← change (·.resultBlockType r.results)
    let (_, body) ← check (liftM ((r.legacy start.entry handlerType tried).run start))
    pure body
  | other => throw (.abort (.unknownStrategy other.text))

/-- Adds a wrapper: its variables one by one, then the types that it needs, then the function. -/
def define (strategy : Strategy) (name : Bytes) (id : FuncId) (type : TypeId) (sig : Signature)
    (tag : TagId) (handles : Handles) : Edit FuncId := do
  let params ← sig.params.mapM fun type => change (·.addLocal type)
  let slot ← change (·.addLocal .i32)
  let exn ← change (·.addLocal .externRef)
  let body ← wrapperBody strategy type ⟨id, params, sig.results, tag, handles, exn, slot⟩
  let body ← check (liftM (body.finish params))
  change (·.addFunction ⟨name, type, .defined body⟩)

def addWrapper (strategy : Strategy) (id : FuncId) (f : Function) (tag : TagId)
    (handles : Handles) : Edit FuncId := do
  let p ← current
  match p.types[f.type]? with
  | none => throw (.abort .missing)
  | some sig => define strategy (p.wrapperName id f) id f.type sig tag handles

/-- The wrapper of an import: one that exists, or a new one. -/
def wrapperOf (strategy : Strategy) (tag : TagId) (handles : Handles) (existing : Targets)
    (id : FuncId) : Edit FuncId := do
  match existing.get? id with
  | some wrapper => pure wrapper
  | none =>
    match (← current).funcs[id]? with
    | none => throw (.abort .missing)
    | some f => addWrapper strategy id f tag handles

def wrapAll (strategy : Strategy) (tag : TagId) (handles : Handles) (existing : Targets) :
    List FuncId → Edit Targets
  | [] => pure []
  | id :: rest => do
    let wrapper ← wrapperOf strategy tag handles existing id
    let targets ← wrapAll strategy tag handles existing rest
    pure ((id, wrapper) :: targets)

/-- Retargets functions one after another. -/
def retargetEach (t : Targets) : List (Function × FuncId) → Edit Nat
  | [] => pure 0
  | (f, id) :: rest => do
    let (count, f) ← check (liftM (Program.retargetFunction t id f))
    change fun p => ((), { p with funcs := p.funcs.set id f })
    let others ← retargetEach t rest
    pure (count + others)

def retargetCalls (t : Targets) : Edit Nat := do
  if t = [] then pure 0
  else retargetEach t (← current).funcs.zipIdx

def guarded (flagged : List FuncId) (strategy : Strategy) (handles : Handles) : Edit Outcome := do
  let tag ← hostTag
  let existing ← check (liftM (← current).existingWrappers)
  let wrappers ← wrapAll strategy tag handles existing flagged
  let retargeted ← retargetCalls wrappers
  pure ⟨← current, some tag, flagged, wrappers, flagged.filter (existing.get? · |>.isSome),
    retargeted⟩

/-- The pass, step by step. The metadata get the tag in the end. -/
def guardImports (adapters : List Adapter) (strategy : Strategy) : Edit Outcome := do
  let s ← get
  match s.metadata with
  | none => throw (.fault (Program.configFault (utf8 "nil metadata")))
  | some md =>
    if md.flagged adapters = [] then pure ⟨s.program, none, [], [], [], 0⟩
    else
      let handles ← check (s.program.vet md (md.flagged adapters) strategy)
      let outcome ← guarded (md.flagged adapters) strategy handles
      modify fun s => { s with metadata := some { md with tag := outcome.tag } }
      pure outcome

/-- Steps do what a function computes: they leave the program that it gives, and fail as it fails.
-/
structure Computes (raise : ε → Failure) (x : Edit α) (f : Program → Except ε (α × Program)) :
    Prop where
  ok : ∀ s a q, f s.program = .ok (a, q) → x s = .ok a { s with program := q }
  error : ∀ s e, f s.program = .error e → ∃ s', x s = .error (raise e) s'

variable {raise : ε → Failure}

theorem bind_ok {x : Edit α} {y : α → Edit β} {s s' : Session} {a : α} (h : x s = .ok a s') :
    (x >>= y) s = y a s' := by
  simp [bind, EStateM.bind, h]

theorem bind_error {x : Edit α} {y : α → Edit β} {s s' : Session} {failure : Failure}
    (h : x s = .error failure s') : (x >>= y) s = .error failure s' := by
  simp [bind, EStateM.bind, h]

namespace Computes

theorem pure (a : α) : Computes raise (Pure.pure a) fun p => .ok (a, p) where
  ok := by
    intro s b q h
    cases h
    rfl
  error := nofun

theorem change (f : Program → α × Program) : Computes raise (Edit.change f) fun p => .ok (f p) where
  ok := by
    intro s a q h
    rw [Except.ok.injEq] at h
    have hrun : Edit.change f s = .ok (f s.program).1 { s with program := (f s.program).2 } := rfl
    rw [hrun, h]
  error := nofun

/-- Edits in a row compute what their functions give in a row. -/
theorem bind {x : Edit α} {y : α → Edit β} {f : Program → Except ε (α × Program)}
    {g : α → Program → Except ε (β × Program)} (hx : Computes raise x f)
    (hy : ∀ a, Computes raise (y a) (g a)) :
    Computes raise (x >>= y) fun p => f p >>= fun r => g r.1 r.2 where
  ok := by
    intro s b q h
    obtain ⟨⟨a, r⟩, hf, hg⟩ := of_bind h
    rw [bind_ok (hx.ok s a r hf)]
    exact (hy a).ok _ b q hg
  error := by
    intro s e h
    cases hf : f s.program with
    | error e' =>
      rw [hf] at h
      cases h
      obtain ⟨s', hs'⟩ := hx.error s e hf
      exact ⟨s', bind_error hs'⟩
    | ok r =>
      rw [hf, ok_bind] at h
      rw [bind_ok (hx.ok s r.1 r.2 hf)]
      exact (hy r.1).error _ e h

theorem congr {x : Edit α} {f g : Program → Except ε (α × Program)} (h : Computes raise x f)
    (heq : ∀ p, g p = f p) : Computes raise x g := by
  rwa [funext heq]

theorem current : Computes raise Edit.current fun p => .ok (p, p) where
  ok := by
    intro s a q h
    cases h
    rfl
  error := nofun

theorem throw (e : ε) : Computes raise (throw (raise e) : Edit α) fun _ => .error e where
  ok := nofun
  error := by
    intro s e' h
    cases h
    exact ⟨s, rfl⟩

theorem check (x : Except Abort α) :
    Computes Failure.abort (Edit.check (liftM x)) fun p => x >>= fun a => .ok (a, p) := by
  cases x with
  | ok a => exact pure a
  | error e => exact throw e

theorem checkFault (x : Except Fault α) :
    Computes Failure.fault (Edit.check (liftM x)) fun p => x >>= fun a => .ok (a, p) := by
  cases x with
  | ok a => exact pure a
  | error e => exact throw e

end Computes

variable {adapters : List Adapter}

theorem hostTag_computes : Computes Failure.fault hostTag Program.hostTag := by
  have himport : Computes Failure.fault (do
      let type ← change (·.addType Program.hostTagSignature)
      let (tag, _) ← change (·.importTag tagModule tagName type)
      Pure.pure tag) fun p => .ok (p.tags.length,
        ((p.addType Program.hostTagSignature).2.importTag tagModule tagName
          (p.addType Program.hostTagSignature).1).2) := by
    refine ((Computes.change _).bind fun type => (Computes.change _).bind fun r =>
      (Computes.pure r.1 : Computes _ _ fun p => .ok (r.1, p))).congr fun p => ?_
    obtain ⟨types, htypes, -⟩ := p.addType_spec Program.hostTagSignature
    simp [Program.importTag, htypes]
  refine (Computes.current.bind fun p => (Computes.checkFault p.existingTag).bind fun found =>
    (?_ : Computes Failure.fault _ fun q => match found with
      | some tag => .ok (tag, q)
      | none => .ok (q.tags.length,
        ((q.addType Program.hostTagSignature).2.importTag tagModule tagName
          (q.addType Program.hostTagSignature).1).2))).congr ?_
  · cases found with
    | some tag => exact .pure tag
    | none => exact himport
  · intro p
    simp only [Program.hostTag, ok_bind]
    cases p.existingTag with
    | error e => rfl
    | ok found =>
      cases found with
      | some tag => rfl
      | none =>
        obtain ⟨types, htypes, -⟩ := p.addType_spec Program.hostTagSignature
        simp [Program.importTag, htypes, Pure.pure, Except.pure]

theorem addLocals_computes (types : List ValType) :
    Computes raise (types.mapM fun type => change (·.addLocal type)) fun p =>
      .ok (List.range' p.locals.length types.length, { p with locals := p.locals ++ types }) := by
  induction types with
  | nil =>
    refine (Computes.pure []).congr fun p => ?_
    simp
  | cons type types ih =>
    rw [mapM_cons]
    refine ((Computes.change _).bind fun var => ih.bind fun vars =>
      Computes.pure (var :: vars)).congr fun p => ?_
    simp [Program.addLocal, range'_succ]

theorem wrapperBody_computes (strategy : Strategy) (type : TypeId) (r : Recipe) :
    Computes Failure.abort (wrapperBody strategy type r) (·.wrapperBody strategy type r) := by
  cases strategy with
  | modern =>
    refine ((Computes.check _).bind fun (built : Unit × Body) => Computes.pure built.2).congr
      fun p => ?_
    simp [Program.wrapperBody, Pure.pure, Except.pure]
  | legacy =>
    refine ((Computes.change _).bind fun handlerType => (Computes.change _).bind fun tried =>
      (Computes.check _).bind fun (built : Unit × Body) => Computes.pure built.2).congr fun p => ?_
    simp [Program.wrapperBody, Pure.pure, Except.pure]
  | none => exact .throw _
  | other number => exact .throw _

theorem define_computes (strategy : Strategy) (name : Bytes) (id : FuncId) (type : TypeId)
    (sig : Signature) (tag : TagId) (handles : Handles) :
    Computes Failure.abort (define strategy name id type sig tag handles) fun p =>
      ({ p with locals := p.locals ++ sig.params ++ [.i32, .externRef] } : Program).wrapperBody
        strategy type (p.recipe id sig tag handles) >>= fun built =>
          built.2.define name type (p.recipe id sig tag handles).params built.1 := by
  refine ((addLocals_computes _).bind fun params => (Computes.change _).bind fun slot =>
    (Computes.change _).bind fun exn => (wrapperBody_computes _ _ _).bind fun body =>
      (Computes.check _).bind fun finished => Computes.change _).congr fun p => ?_
  simp [Program.addLocal, Program.recipe, Program.define, Pure.pure, Except.pure]

theorem addWrapper_computes (strategy : Strategy) (id : FuncId) (f : Function) (tag : TagId)
    (handles : Handles) : Computes Failure.abort (addWrapper strategy id f tag handles)
      (·.addWrapper strategy id f tag handles) := by
  refine (Computes.current.bind fun p =>
    (?_ : Computes Failure.abort _ fun q => match p.types[f.type]? with
      | none => .error .missing
      | some sig =>
        ({ q with locals := q.locals ++ sig.params ++ [.i32, .externRef] } : Program).wrapperBody
          strategy f.type (q.recipe id sig tag handles) >>= fun built =>
            built.2.define (p.wrapperName id f) f.type (q.recipe id sig tag handles).params
              built.1)).congr fun p => rfl
  cases p.types[f.type]? with
  | none => exact .throw _
  | some sig => exact define_computes strategy _ id f.type sig tag handles

theorem wrapAll_computes (strategy : Strategy) (tag : TagId) (handles : Handles)
    (existing : Targets) (ids : List FuncId) :
    Computes Failure.abort (wrapAll strategy tag handles existing ids)
      (Program.wrapAll strategy tag handles existing ids) := by
  induction ids with
  | nil => exact .pure []
  | cons id ids ih =>
    have hrest (w : FuncId) : Computes Failure.abort (do
        let targets ← wrapAll strategy tag handles existing ids
        pure ((id, w) :: targets)) fun p =>
          Program.wrapAll strategy tag handles existing ids p >>= fun r =>
            .ok ((id, w) :: r.1, r.2) :=
      ih.bind fun targets => .pure _
    unfold wrapAll wrapperOf
    cases hid : existing.get? id with
    | some w =>
      refine ((Computes.pure w).bind hrest).congr fun p => ?_
      simp only [Program.wrapAll, hid]
      rfl
    | none =>
      refine ((Computes.current.bind fun p => (?_ : Computes Failure.abort _ fun q =>
        match p.funcs[id]? with
        | none => .error .missing
        | some f => q.addWrapper strategy id f tag handles)).bind hrest).congr fun p => ?_
      · cases p.funcs[id]? with
        | none => exact .throw _
        | some f => exact addWrapper_computes strategy id f tag handles
      · simp only [Program.wrapAll, hid, ok_bind]
        cases p.funcs[id]? <;> rfl

theorem retargetEach_computes (t : Targets) (entries : List (Function × FuncId)) :
    Computes Failure.abort (retargetEach t entries) fun p =>
      (entries.mapM fun (f, id) => Program.retargetFunction t id f) >>= fun results =>
        .ok ((results.map Prod.fst).foldr (· + ·) 0, { p with
          funcs := (entries.zip results).foldl (fun fs r => fs.set r.1.2 r.2.2) p.funcs }) := by
  induction entries with
  | nil => exact .pure 0
  | cons entry rest ih =>
    obtain ⟨f, id⟩ := entry
    refine ((Computes.check (Program.retargetFunction t id f)).bind fun r =>
      (Computes.change _).bind fun _ => ih.bind fun others => Computes.pure _).congr fun p => ?_
    simp only [mapM_cons, bind_assoc, ok_bind, pure_bind]
    rfl

theorem foldl_set_zip {fs : List Function} {results : List (Nat × Function)}
    (h : results.length = fs.length) : ∀ before : List Function,
      ((fs.zipIdx before.length).zip results).foldl (fun fs r => fs.set r.1.2 r.2.2)
        (before ++ fs) = before ++ results.map Prod.snd := by
  induction fs generalizing results with
  | nil =>
    intro before
    cases results with
    | nil => rfl
    | cons => cases h
  | cons f fs ih =>
    intro before
    cases results with
    | nil => cases h
    | cons r results =>
      have hrest := ih (Nat.succ.inj h) (before ++ [r.2])
      simp only [length_append, length_singleton, append_assoc, singleton_append] at hrest
      simpa [zipIdx_cons] using hrest

theorem retargetCalls_computes (t : Targets) :
    Computes Failure.abort (retargetCalls t) (·.retargetCalls t) := by
  unfold retargetCalls Program.retargetCalls
  split
  next => exact .pure 0
  next =>
    refine (Computes.current.bind fun p => retargetEach_computes t p.funcs.zipIdx).congr fun p => ?_
    rw [ok_bind]
    generalize hresults : (List.mapM _ p.funcs.zipIdx : Except Abort (List (Nat × Function))) =
      retargeted
    cases retargeted with
    | error e => rfl
    | ok results =>
      have hlength : results.length = p.funcs.length := by
        simpa using (mapM_eq_ok_iff.mp hresults).length_eq.symm
      have hset := foldl_set_zip hlength []
      simp only [length_nil, nil_append] at hset
      simp only [ok_bind, hset]
      rfl

theorem Computes.liftFault {x : Edit α} {f : Program → Except Fault (α × Program)}
    (h : Computes Failure.fault x f) : Computes id x fun p => liftM (f p) where
  ok := fun s a q hf => h.ok s a q (liftM_fault_eq_ok_iff.mp hf)
  error := by
    intro s e hf
    cases hs : f s.program with
    | ok r =>
      rw [hs] at hf
      cases hf
    | error e' =>
      rw [hs] at hf
      cases hf
      exact h.error s e' hs

theorem Computes.liftAbort {x : Edit α} {f : Program → Except Abort (α × Program)}
    (h : Computes Failure.abort x f) : Computes id x fun p => liftM (f p) where
  ok := fun s a q hf => h.ok s a q (liftM_abort_eq_ok_iff.mp hf)
  error := by
    intro s e hf
    cases hs : f s.program with
    | ok r =>
      rw [hs] at hf
      cases hf
    | error e' =>
      rw [hs] at hf
      cases hf
      exact h.error s e' hs

/-- Edit by edit, the pass computes the function on programs. -/
theorem guarded_computes (flagged : List FuncId) (strategy : Strategy) (handles : Handles) :
    Computes id (guarded flagged strategy handles) (·.guarded flagged strategy handles) := by
  refine (hostTag_computes.liftFault.bind fun tag => Computes.current.bind fun p =>
    (Computes.check p.existingWrappers).liftAbort.bind fun existing =>
      (wrapAll_computes strategy tag handles existing flagged).liftAbort.bind fun wrappers =>
        (retargetCalls_computes wrappers).liftAbort.bind fun retargeted =>
          Computes.current.bind fun q => Computes.pure _).congr fun p => ?_
  simp only [Program.guarded, ok_bind]
  refine bind_congr fun r => ?_
  cases r.2.existingWrappers with
  | error e => rfl
  | ok existing => rfl

theorem guardImports_none (adapters : List Adapter) (strategy : Strategy) (p : Program) :
    guardImports adapters strategy ⟨p, none⟩ =
      .error (.fault (Program.configFault (utf8 "nil metadata"))) ⟨p, none⟩ := rfl

theorem guardImports_of_nil {md : Metadata} (h : md.flagged adapters = []) (strategy : Strategy)
    (p : Program) :
    guardImports adapters strategy ⟨p, some md⟩ =
      .ok ⟨p, none, [], [], [], 0⟩ ⟨p, some md⟩ := by
  have hget : (get : Edit Session) ⟨p, some md⟩ = .ok ⟨p, some md⟩ ⟨p, some md⟩ := rfl
  rw [guardImports, bind_ok hget]
  simp only [h, ↓reduceIte]
  rfl

/-- What happens to a request for some import: it is checked, the changes are made, and the
metadata get the tag. -/
theorem guardImports_of_ne_nil {md : Metadata} (h : md.flagged adapters ≠ []) (strategy : Strategy)
    (p : Program) :
    guardImports adapters strategy ⟨p, some md⟩ =
      (check (p.vet md (md.flagged adapters) strategy) >>= fun handles =>
        guarded (md.flagged adapters) strategy handles >>= fun outcome => do
          modify fun s => { s with metadata := some { md with tag := outcome.tag } }
          pure outcome) ⟨p, some md⟩ := by
  have hget : (get : Edit Session) ⟨p, some md⟩ = .ok ⟨p, some md⟩ ⟨p, some md⟩ := rfl
  rw [guardImports, bind_ok hget]
  simp only [if_neg h]

/-- A pass that changes things in place does what the pass computes, whatever it is run on. -/
theorem guardImports_runs (adapters : List Adapter) (strategy : Strategy) (p : Program)
    (md : Option Metadata) :
    match p.guardImports md adapters strategy with
    | .ok o => guardImports adapters strategy ⟨p, md⟩ = .ok o
        ⟨o.program, md.map fun md => { md with tag := o.tag.or md.tag }⟩
    | .error failure => ∃ s, guardImports adapters strategy ⟨p, md⟩ = .error failure s := by
  cases md with
  | none => exact ⟨_, guardImports_none adapters strategy p⟩
  | some md =>
    by_cases hflagged : md.flagged adapters = []
    · rw [guardImports_of_nil hflagged, Program.guardImports]
      simp only [hflagged, ↓reduceIte]
      rfl
    · rw [guardImports_of_ne_nil hflagged, Program.guardImports_eq strategy hflagged]
      cases p.vet md (md.flagged adapters) strategy with
      | error failure => exact ⟨_, bind_error rfl⟩
      | ok handles =>
        rw [ok_bind, bind_ok (show check (.ok handles) ⟨p, some md⟩ = .ok handles _ from rfl)]
        cases hguarded : p.guarded (md.flagged adapters) strategy handles with
        | error failure =>
          obtain ⟨s, hs⟩ := (guarded_computes _ _ _).error ⟨p, some md⟩ failure hguarded
          exact ⟨s, bind_error hs⟩
        | ok r =>
          obtain ⟨o, q⟩ := r
          obtain ⟨rfl, htag⟩ := Program.guarded_eq_ok hguarded
          have hs := (guarded_computes _ _ _).ok ⟨p, some md⟩ o o.program hguarded
          refine (bind_ok hs).trans ?_
          simp only [Option.map_some, Option.or_of_isSome htag]
          rfl

/-- Where the tag of host exceptions has another type, nothing has changed when that is seen. -/
theorem guarded_of_existingTag {p : Program} {e : Fault} (h : p.existingTag = .error e)
    (flagged : List FuncId) (strategy : Strategy) (handles : Handles) (md : Option Metadata) :
    guarded flagged strategy handles ⟨p, md⟩ = .error (.fault e) ⟨p, md⟩ := by
  have hcurrent : current ⟨p, md⟩ = .ok p ⟨p, md⟩ := rfl
  have hcheck : (check (liftM p.existingTag) : Edit (Option TagId)) ⟨p, md⟩ =
      .error (.fault e) ⟨p, md⟩ := by
    rw [h]
    rfl
  refine bind_error ?_
  rw [hostTag, bind_ok hcurrent]
  exact bind_error hcheck

/-- On a well-formed program, a request that fails is seen to fail before anything changes. -/
theorem guardImports_error {p : Program} (hp : p.WellFormed) {md : Option Metadata}
    {strategy : Strategy} (hstrategy : strategy = .none ∨ strategy = .legacy ∨ strategy = .modern)
    {failure : Failure} (h : p.guardImports md adapters strategy = .error failure) :
    guardImports adapters strategy ⟨p, md⟩ = .error failure ⟨p, md⟩ := by
  cases md with
  | none =>
    cases h
    exact guardImports_none adapters strategy p
  | some md =>
    have hflagged : md.flagged adapters ≠ [] := by
      intro hnil
      simp only [Program.guardImports, hnil, ↓reduceIte] at h
      cases h
    rw [guardImports_of_ne_nil hflagged]
    rw [Program.guardImports_eq strategy hflagged] at h
    cases hvet : p.vet md (md.flagged adapters) strategy with
    | error other =>
      rw [hvet] at h
      cases h
      exact bind_error rfl
    | ok handles =>
      rw [hvet, ok_bind] at h
      rw [bind_ok (show check (.ok handles) ⟨p, some md⟩ = .ok handles _ from rfl)]
      obtain ⟨hhandles, hnone, hresults⟩ := Program.vet_eq_ok hvet
      cases htag : p.existingTag with
      | error e =>
        have hguarded : p.guarded (md.flagged adapters) strategy handles = .error (.fault e) := by
          rw [Program.guarded, Program.hostTag, htag]
          rfl
        rw [hguarded] at h
        cases h
        exact bind_error (guarded_of_existingTag htag _ _ _ _)
      | ok found =>
        obtain ⟨r, hr⟩ := Program.guarded_exists hp (hstrategy.resolve_left hnone) htag
          (fun id hid => Program.checkHandles_eq_ok hhandles hid) hresults handles
        rw [hr] at h
        cases h

/-- A pass over a well-formed program either makes all its changes, those that are computed, or none
at all. -/
theorem guardImports_allOrNothing {p : Program} (hp : p.WellFormed) (md : Option Metadata)
    (adapters : List Adapter) {strategy : Strategy}
    (hstrategy : strategy = .none ∨ strategy = .legacy ∨ strategy = .modern) :
    match guardImports adapters strategy ⟨p, md⟩ with
    | .ok o s => p.guardImports md adapters strategy = .ok o ∧
        s = ⟨o.program, md.map fun md => { md with tag := o.tag.or md.tag }⟩
    | .error failure s => p.guardImports md adapters strategy = .error failure ∧ s = ⟨p, md⟩ := by
  have hruns := guardImports_runs adapters strategy p md
  cases hrun : p.guardImports md adapters strategy with
  | ok o =>
    rw [hrun] at hruns
    simp only [hruns, and_self]
  | error failure =>
    simp only [guardImports_error hp hstrategy hrun, and_self]

theorem oneCaller_allOrNothing :
    let md : Metadata := { catching := [7], table := some 0, alloc := some 0, store := some 0 }
    guardImports [⟨0, 0, 7⟩] .none ⟨Program.oneCaller, some md⟩ =
        .error (.abort .noStrategy) ⟨Program.oneCaller, some md⟩ ∧
      ∃ o, guardImports [⟨0, 0, 7⟩] .modern ⟨Program.oneCaller, some md⟩ =
        .ok o ⟨o.program, some { md with tag := some 0 }⟩ := by
  intro md
  have hflagged : md.flagged [⟨0, 0, 7⟩] = [0] := by cbv
  constructor
  · have hfails : Program.oneCaller.guardImports (some md) [⟨0, 0, 7⟩] .none =
        .error (.abort .noStrategy) := by
      simp only [Program.guardImports, hflagged]
      rfl
    have h := guardImports_allOrNothing Program.oneCaller_wellFormed (some md) [⟨0, 0, 7⟩] (.inl rfl)
    rw [hfails] at h
    split at h
    next => cases h.1
    next hrun =>
      obtain ⟨heq, rfl⟩ := h
      cases heq
      exact hrun
  · have hok : (Program.oneCaller.guardImports (some md) [⟨0, 0, 7⟩] .modern).map Outcome.tag =
        .ok (some 0) := by
      simp only [Program.guardImports, hflagged]
      rfl
    have h := guardImports_allOrNothing Program.oneCaller_wellFormed (some md) [⟨0, 0, 7⟩]
      (.inr (.inr rfl))
    split at h
    next o _ hrun =>
      obtain ⟨heq, rfl⟩ := h
      rw [heq] at hok
      have htag : o.tag = some 0 := Except.ok.inj hok
      refine ⟨o, ?_⟩
      rw [hrun, htag]
      rfl
    next =>
      rw [h.1] at hok
      cases hok

end Edit

end HostCatch
