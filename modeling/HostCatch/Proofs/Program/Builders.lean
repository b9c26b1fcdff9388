import HostCatch.Proofs.Program.Following
import HostCatch.Proofs.Program.Labels

namespace HostCatch

open List

/-- A function that is being built. -/
structure Builder where
  name : Bytes := []
  type : TypeId
  body : Body

/-- A program with the builders that were opened for it. A builder can be finished more than once, and
the functions that it was finished as share its body. -/
structure Workbench where
  program : Program
  builders : List Builder := []
  /-- The functions that were built, each with the position of its builder. -/
  built : List (FuncId × Nat) := []

/-- What an identifier stands for: something that stays as it is, or a function that has the body of a
builder. -/
inductive Meaning where
  | fixed (b : Binding)
  | built (id : FuncId) (name : Bytes) (builder : Nat)

namespace Program

def setBodies (p : Program) (ids : List FuncId) (body : Body) : Program :=
  ids.foldl (fun p id => p.setBody id body) p

theorem setBodies_eq (p : Program) (ids : List FuncId) (body : Body) : ∃ funcs,
    p.setBodies ids body = { p with funcs } ∧ ∀ id : FuncId, funcs[id]? =
      p.funcs[id]?.map fun f => if id ∈ ids then { f with kind := .defined body } else f := by
  induction ids generalizing p with
  | nil => exact ⟨p.funcs, rfl, by simp⟩
  | cons first ids ih =>
    obtain ⟨funcs, heq, hall⟩ := ih (p.setBody first body)
    refine ⟨funcs, heq, fun id => ?_⟩
    rw [hall]
    by_cases hid : first = id
    · subst hid
      cases hf : p.funcs[first]? with
      | none => simp [setBody, hf]
      | some f => simp [setBody_self p body hf]
    · rw [setBody_of_ne p body hid]
      simp [Ne.symm hid]

variable {p : Program} {ids : List FuncId}

theorem setBodies_of_notMem {id : FuncId} (h : id ∉ ids) (body : Body) :
    (p.setBodies ids body).funcs[id]? = p.funcs[id]? := by
  obtain ⟨funcs, heq, hall⟩ := p.setBodies_eq ids body
  rw [heq, hall]
  simp [h]

theorem setBodies_of_mem {id : FuncId} (h : id ∈ ids) {f : Function} (hf : p.funcs[id]? = some f)
    (body : Body) : (p.setBodies ids body).funcs[id]? = some { f with kind := .defined body } := by
  obtain ⟨funcs, heq, hall⟩ := p.setBodies_eq ids body
  rw [heq, hall, hf]
  simp [h]

theorem setBodies_length (p : Program) (ids : List FuncId) (body : Body) :
    (p.setBodies ids body).funcs.length = p.funcs.length := by
  induction ids generalizing p with
  | nil => rfl
  | cons first ids ih => exact (ih _).trans (by simp [setBody])

theorem setBodies_holds {b : Binding} (h : p.Holds b) (hfunc : ∀ id f, b = .func id f → id ∉ ids)
    (body : Body) : (p.setBodies ids body).Holds b := by
  obtain ⟨funcs, heq, -⟩ := p.setBodies_eq ids body
  cases b with
  | func id f => exact (setBodies_of_notMem (hfunc id f rfl) body).trans h
  | _ =>
    rw [heq]
    exact h

/-- Other bodies for functions that are defined change nothing about imports. -/
theorem setBodies_paired (hp : p.Paired) (hdefined : ∀ id ∈ ids, ∃ f b, p.funcs[id]? = some f ∧
    f.kind = .defined b) (body : Body) : (p.setBodies ids body).Paired := by
  have hsame : (p.setBodies ids body).funcs.map Function.import? = p.funcs.map Function.import? := by
    refine ext_getElem? fun id => ?_
    rw [getElem?_map, getElem?_map]
    by_cases hid : id ∈ ids
    · obtain ⟨f, b, hf, hb⟩ := hdefined id hid
      rw [setBodies_of_mem hid hf, hf]
      simp [Function.import?, hb]
    · rw [setBodies_of_notMem hid]
  obtain ⟨funcs, heq, -⟩ := p.setBodies_eq ids body
  rw [heq] at hsame ⊢
  exact ⟨hsame ▸ hp.funcs, hp.tables, hp.tags⟩

/-- An operation hands out no function but the next one. -/
theorem Adds.fresh {new : List Binding} {q : Program} (h : p.Adds new q) {id : FuncId} {f : Function}
    (hf : .func id f ∈ new) : id = p.funcs.length := by
  cases h with
  | importFunction _ _ _ h =>
    cases h
    simp at hf
    exact hf.1
  | define _ _ _ _ hbody h =>
    obtain ⟨rfl, -⟩ := define_eq_ok hbody h
    simp at hf
    exact hf.1
  | _ => simp at hf

end Program

namespace Workbench

open Program

/-- The functions that a builder was finished as. -/
def finished (s : Workbench) (k : Nat) : List FuncId :=
  (s.built.filter (·.2 = k)).map Prod.fst

/-- Another body for a builder is another body for all functions that it was finished as. -/
def share (s : Workbench) (k : Nat) (c : Builder) (body : Body) : Workbench :=
  { s with
    program := s.program.setBodies (s.finished k) body
    builders := s.builders.set k { c with body } }

/-- One operation with the identifiers that it hands out: one on the program, a new builder, anything
that is done with a builder, and a function that a builder is finished as. -/
inductive Does (s : Workbench) : List Meaning → Workbench → Prop
  | adds {new q} : s.program.Adds new q → Does s (new.map .fixed) { s with program := q }
  | opens (type) : Does s [] { s with builders := s.builders ++ [{ type, body := .start type }] }
  | works {k c} (name body) : s.builders[k]? = some c → Does s [] (s.share k { c with name } body)
  | finishes {k c body id q} (params) : s.builders[k]? = some c → c.body.finish params = .ok body →
      (s.share k c body).program.define c.name c.type params c.body = .ok (id, q) →
      Does s [.built id c.name k]
        { s.share k c body with program := q, built := s.built ++ [(id, k)] }

/-- What operations lead to, with all the identifiers handed out on the way. -/
inductive Runs (start : Workbench) : List Meaning → Workbench → Prop
  | start : Runs start [] start
  | next {issued s new t} : Runs start issued s → s.Does new t → Runs start (issued ++ new) t

/-- A function has the body of its builder. -/
def Shares (s : Workbench) (id : FuncId) (name : Bytes) (k : Nat) : Prop :=
  ∃ c, s.builders[k]? = some c ∧ s.program.funcs[id]? = some ⟨name, c.type, .defined c.body⟩

/-- What stands at the position that an identifier names. A function that was not built stays as it is;
another has the body that its builder has. -/
def Means (s : Workbench) : Meaning → Prop
  | .fixed b => s.program.Holds b ∧ ∀ id f, b = .func id f → ∀ k, (id, k) ∉ s.built
  | .built id name k => (id, k) ∈ s.built ∧ s.Shares id name k

/-- Imports and what they provide name each other, and every function that was built has one builder,
whose body is its own. -/
structure Sound (s : Workbench) : Prop where
  paired : s.program.Paired
  others : s.program.CarriesOthers
  bodies : ∀ id k, (id, k) ∈ s.built → ∃ name, s.Shares id name k
  apart : ∀ id k k', (id, k) ∈ s.built → (id, k') ∈ s.built → k = k'

variable {s t : Workbench} {k : Nat} {c : Builder} {id : FuncId} {name : Bytes} {q : Program}

theorem mem_finished : id ∈ s.finished k ↔ (id, k) ∈ s.built := by
  simp [finished]

theorem Shares.lt (h : s.Shares id name k) : id < s.program.funcs.length := by
  obtain ⟨_, _, hf⟩ := h
  exact lt_of_getElem? hf

theorem Shares.of_keeps (hq : s.program.Keeps q) (h : s.Shares id name k) :
    Shares { s with program := q } id name k := by
  obtain ⟨c, hk, hf⟩ := h
  exact ⟨c, hk, getElem?_of_isPrefix hq.funcs hf⟩

namespace Sound

variable (hs : s.Sound)

include hs

/-- A function that was built has the body of its builder also after something was done with some
builder. -/
theorem share_shares (hk : s.builders[k]? = some c) (name' : Bytes) (body : Body) {j : Nat}
    (hid : (id, j) ∈ s.built) (h : s.Shares id name j) :
    (s.share k { c with name := name' } body).Shares id name j := by
  obtain ⟨d, hd, hf⟩ := h
  by_cases hj : j = k
  · subst hj
    cases hk.symm.trans hd
    exact ⟨_, getElem?_set_self (lt_of_getElem? hk), setBodies_of_mem (mem_finished.mpr hid) hf body⟩
  · have hout : id ∉ s.finished k := fun hmem => hj (hs.apart id j k hid (mem_finished.mp hmem))
    exact ⟨d, (getElem?_set_ne (Ne.symm hj)).trans hd, (setBodies_of_notMem hout body).trans hf⟩

theorem share (hk : s.builders[k]? = some c) (name : Bytes) (body : Body) :
    (s.share k { c with name } body).Sound where
  paired := by
    refine setBodies_paired hs.paired (fun id hid => ?_) body
    obtain ⟨_, _, _, hf⟩ := hs.bodies id k (mem_finished.mp hid)
    exact ⟨_, _, hf, rfl⟩
  others := by
    obtain ⟨funcs, heq, -⟩ := s.program.setBodies_eq (s.finished k) body
    rw [Workbench.share, heq]
    exact hs.others
  bodies := by
    intro id j hid
    obtain ⟨name', hshares⟩ := hs.bodies id j hid
    exact ⟨name', hs.share_shares hk name body hid hshares⟩
  apart := hs.apart

theorem adds {new : List Binding} (h : s.program.Adds new q) : Sound { s with program := q } where
  paired := h.paired hs.paired
  others := h.carriesOthers hs.others
  bodies := by
    intro id k hid
    obtain ⟨name, hshares⟩ := hs.bodies id k hid
    exact ⟨name, hshares.of_keeps h.keeps⟩
  apart := hs.apart

theorem opens (type : TypeId) :
    Sound { s with builders := s.builders ++ [{ type, body := .start type }] } where
  paired := hs.paired
  others := hs.others
  bodies := by
    intro id k hid
    obtain ⟨name, c, hk, hf⟩ := hs.bodies id k hid
    exact ⟨name, c, getElem?_append_some _ hk, hf⟩
  apart := hs.apart

theorem fresh (k : Nat) : (s.program.funcs.length, k) ∉ s.built := by
  intro hmem
  obtain ⟨_, hshares⟩ := hs.bodies _ k hmem
  exact Nat.lt_irrefl _ hshares.lt

/-- A function that has the body of a builder can be counted among those that were built, if it is none
of them. -/
theorem record (h : s.Shares id name k) (hfresh : ∀ j, (id, j) ∉ s.built) :
    Sound { s with built := s.built ++ [(id, k)] } where
  paired := hs.paired
  others := hs.others
  bodies := by
    intro func j hmem
    rcases mem_append.mp hmem with hmem | hmem
    · exact hs.bodies func j hmem
    · cases mem_singleton.mp hmem
      exact ⟨name, h⟩
  apart := by
    intro func j j' hmem hmem'
    rcases mem_append.mp hmem with hold | hnew
    · rcases mem_append.mp hmem' with hold' | hnew'
      · exact hs.apart func j j' hold hold'
      · cases mem_singleton.mp hnew'
        exact absurd hold (hfresh j)
    · cases mem_singleton.mp hnew
      rcases mem_append.mp hmem' with hold' | hnew'
      · exact absurd hold' (hfresh j')
      · cases mem_singleton.mp hnew'
        rfl

end Sound

variable {new : List Meaning} {m : Meaning}

/-- A builder is finished in three steps: it and its functions get the body with all variables declared,
a function with this body is added, and it is counted among those that were built. -/
theorem Sound.finishes (hs : s.Sound) (hk : s.builders[k]? = some c) {params : List LocalId} {body : Body}
    (hbody : c.body.finish params = .ok body)
    (h : (s.share k c body).program.define c.name c.type params c.body = .ok (id, q)) :
    id = s.program.funcs.length ∧ (s.share k c body).program.Keeps q ∧
      Shares { s.share k c body with program := q } id c.name k ∧
      Sound { s.share k c body with program := q, built := s.built ++ [(id, k)] } := by
  have hadds := Adds.define c.name c.type params c.body hbody h
  have hshared := hs.share hk c.name body
  obtain ⟨hid, hq⟩ := define_eq_ok hbody h
  have hshares : Shares { s.share k c body with program := q } id c.name k := by
    refine ⟨{ c with body }, getElem?_set_self (lt_of_getElem? hk), ?_⟩
    rw [hq, hid]
    exact getElem?_concat_length
  exact ⟨hid.trans (setBodies_length ..), hadds.keeps, hshares,
    (hshared.adds hadds).record hshares fun j => hid ▸ hshared.fresh j⟩

theorem Does.sound (h : s.Does new t) (hs : s.Sound) : t.Sound := by
  cases h with
  | adds h => exact hs.adds h
  | opens type => exact hs.opens type
  | works name body hk => exact hs.share hk name body
  | finishes params hk hbody h => exact (hs.finishes hk hbody h).2.2.2

/-- Whatever is done with a builder, an identifier keeps its meaning. -/
theorem Sound.share_means (hs : s.Sound) (hk : s.builders[k]? = some c) (name : Bytes) (body : Body)
    (hm : s.Means m) : (s.share k { c with name } body).Means m := by
  cases m with
  | fixed b =>
    refine ⟨setBodies_holds hm.1 (fun id f heq hmem => ?_) body, hm.2⟩
    exact hm.2 id f heq k (mem_finished.mp hmem)
  | built id name' j => exact ⟨hm.1, hs.share_shares hk name body hm.1 hm.2⟩

theorem Means.of_keeps (hq : s.program.Keeps q) (hm : s.Means m) :
    Means { s with program := q } m := by
  cases m with
  | fixed b => exact ⟨hq.holds hm.1, hm.2⟩
  | built id name k => exact ⟨hm.1, hm.2.of_keeps hq⟩

/-- No operation changes what an identifier stands for. -/
theorem Does.means (h : s.Does new t) (hs : s.Sound) (hm : s.Means m) : t.Means m := by
  cases h with
  | adds h => exact hm.of_keeps h.keeps
  | opens type =>
    cases m with
    | fixed b => exact hm
    | built id name k =>
      obtain ⟨hid, c, hk, hf⟩ := hm
      exact ⟨hid, c, getElem?_append_some _ hk, hf⟩
  | works name body hk => exact hs.share_means hk name body hm
  | @finishes k c body id q params hk hbody h =>
    obtain ⟨hid, hkeeps, -, -⟩ := hs.finishes hk hbody h
    have hshared := (hs.share_means hk c.name body hm).of_keeps hkeeps
    cases m with
    | fixed b =>
      refine ⟨hshared.1, fun func f heq j hmem => ?_⟩
      rcases mem_append.mp hmem with hmem | hmem
      · exact hm.2 func f heq j hmem
      · -- the new function was nothing before
        cases mem_singleton.mp hmem
        subst heq
        have hf : s.program.funcs[id]? = some f := hm.1
        exact absurd (lt_of_getElem? hf) (hid ▸ Nat.lt_irrefl _)
    | built func name j => exact ⟨mem_append_left _ hshared.1, hshared.2⟩

/-- What an operation hands out stands for what it was handed out for. -/
theorem Does.issues (h : s.Does new t) (hs : s.Sound) : ∀ m ∈ new, t.Means m := by
  cases h with
  | adds h =>
    refine forall_mem_map.mpr fun b hb => ⟨h.holds_iff.mpr (.inr hb), ?_⟩
    rintro id f rfl k
    rw [h.fresh hb]
    exact hs.fresh k
  | opens | works => exact forall_mem_nil _
  | finishes params hk hbody h =>
    obtain ⟨-, -, hshares, -⟩ := hs.finishes hk hbody h
    exact forall_mem_singleton.mpr ⟨mem_append_right _ (mem_singleton_self _), hshares⟩

namespace Runs

variable {start : Workbench} {issued : List Meaning}

theorem sound (h : Runs start issued s) (hstart : start.Sound) : s.Sound := by
  induction h with
  | start => exact hstart
  | next _ hdoes ih => exact hdoes.sound ih

theorem means (h : Runs start issued s) (hstart : start.Sound) (hm : start.Means m) :
    s.Means m := by
  induction h with
  | start => exact hm
  | next hruns hdoes ih => exact hdoes.means (hruns.sound hstart) ih

theorem issues (h : Runs start issued s) (hstart : start.Sound) : ∀ m ∈ issued, s.Means m := by
  induction h with
  | start => exact forall_mem_nil _
  | next hruns hdoes ih =>
    have hsound := hruns.sound hstart
    exact forall_mem_append.mpr ⟨fun m hm => hdoes.means hsound (ih m hm), hdoes.issues hsound⟩

end Runs

end Workbench

namespace Program

variable {p : Program} {out : Wire.Module}

/-- The code of a function is that of its body: it is written instruction by instruction, names the
functions, tables and tags that the body names, and is read back as a copy of the body if all that the
body names is there. -/
structure ShowsBody (p : Program) (extra : List ValType) (id : FuncId) (type : TypeId) (b : Body)
    (code : Wire.FuncBody) : Prop where
  written : p.WritesBody extra id b code
  refers : (∀ space, p.count space ≤ 2 ^ 32) → ∃ ws, Wire.encodeInstrs ws = .ok code.code ∧
    ∀ space, Refers p.numbering space (b.references space) ws
  reads : p.Supplies type b → p.ReadsBack extra type b code

/-- A module has the body of every defined function at the index of the function. -/
def ShowsBodies (p : Program) (out : Wire.Module) : Prop :=
  ∃ extra, out.types = (p.typesWith extra).map Signature.toWire ∧
    ∀ id f b, p.funcs[id]? = some f → f.kind = .defined b → ∃ code,
      out.funcSpace[p.numbering.funcs.idxOf id]? = some (UInt32.ofNat f.type, .defined code) ∧
      p.ShowsBody extra id f.type b code

theorem WritesBody.shows {extra : List ValType} {id : FuncId} {type : TypeId} {b : Body}
    {code : Wire.FuncBody} (h : p.WritesBody extra id b code) (hp : p.Paired) :
    p.ShowsBody extra id type b code where
  written := h
  refers hcount := h.refers fun space => ⟨_, hcount space, hp.order_perm space⟩
  reads hsupplies := hsupplies.readsBack hp h

theorem LoweredTo.showsBodies (h : p.LoweredTo out) (hp : p.Paired) : p.ShowsBodies out := by
  obtain ⟨extra, htypes, -, hfinds⟩ := h.funcs
  refine ⟨extra, htypes, fun id f b hf hb => ?_⟩
  obtain ⟨_, origin, hget, rfl, hcomes⟩ := hfinds id f hf
  simp only [Function.import?, hb] at hcomes
  cases hcomes with
  | defined hcontent =>
    obtain ⟨_, ⟨⟩, hwrites⟩ := hcontent
    exact ⟨_, hget, hwrites.shows hp⟩

end Program

namespace Workbench

open Program

theorem sound_of_isStart {p : Program} (h : p.IsStart) : Sound { program := p } where
  paired := h.paired
  others := h.carriesOthers
  bodies _ _ h := absurd h not_mem_nil
  apart _ _ _ h := absurd h not_mem_nil

/-- Whatever operations have led to a program: identifiers stand for what they stood for when they were
handed out, imports and what they provide name each other, indices are given out without gaps and
without repetition, and a module that is written has at each index the entity that it is given to. The
functions that a builder was finished as have its body, however often it was finished. -/
theorem runs_indexed {start : Program} {s t : Workbench} {issued later : List Meaning}
    (hstart : start.IsStart) (hs : Runs { program := start } issued s) (ht : Runs s later t) :
    (∀ m ∈ issued, s.Means m) ∧ (∀ m, s.Means m → t.Means m) ∧ t.program.Paired ∧
      (Numbering.Numbers t.program.numbering.funcs t.program.funcs.length ∧
        Numbering.Numbers t.program.numbering.tables t.program.tables.length ∧
        Numbering.Numbers t.program.numbering.tags t.program.tags.length) ∧
      ∀ out, t.program.toModule = .ok out → t.program.LoweredTo out ∧ t.program.ShowsBodies out := by
  have hsound := hs.sound (sound_of_isStart hstart)
  obtain ⟨hpaired, hothers, -, -⟩ := ht.sound hsound
  refine ⟨hs.issues (sound_of_isStart hstart), fun m hm => ht.means hsound hm, hpaired,
    hpaired.numbers, fun out hout => ?_⟩
  obtain ⟨bodies, extra, names, hemits⟩ := toModule_eq_ok_iff.mp hout
  have hlowered := hemits.loweredTo hpaired hothers
  exact ⟨hlowered, hlowered.showsBodies hpaired⟩

/-- A builder that was finished as a function that throws. -/
def onceFinished : Workbench where
  program := {
    types := [⟨[], []⟩]
    funcs := [⟨[], 0, .defined thrower⟩]
    tags := [⟨0, 0, none⟩, ⟨0, 0, some 0⟩]
    imports := [⟨"m", "tag", .tag 1⟩] }
  builders := [⟨[], 0, thrower⟩]
  built := [(0, 0)]

/-- A body that throws a tag or calls an import. -/
def reworked : Body :=
  { seqs := [⟨.multi 0, [.const (.i32 0), .ifElse 1 2]⟩, ⟨.empty, [.throw 0]⟩, ⟨.empty, [.call 1]⟩] }

/-- The builder was given another name and body and was finished again, after imports of all kinds. -/
def twiceFinished : Workbench where
  program := { interleaved with
    funcs := [⟨[], 0, .defined reworked⟩, ⟨[], 0, .imported 1⟩, ⟨[0x66], 0, .defined reworked⟩] }
  builders := [⟨[0x66], 0, reworked⟩]
  built := [(0, 0), (2, 0)]

theorem onceFinished_reached :
    ∃ issued, Runs { program := {} } (issued ++ [.built 0 [] 0]) onceFinished := by
  have hnone : Runs { program := {} } [] { program := {} } := .start
  have htag := (hnone.next (.adds (.addType ⟨[], []⟩ rfl))).next (.adds (.addTag 0 rfl))
  have hopened := (htag.next (.adds (.importTag "m" "tag" 0 rfl))).next (.opens 0)
  have hworked := hopened.next (.works (k := 0) [] thrower rfl)
  have hfinished := hworked.next (.finishes (k := 0) [] rfl rfl rfl)
  exact ⟨_, hfinished⟩

theorem twiceFinished_reached : ∃ issued, Runs onceFinished issued twiceFinished := by
  have hnone : Runs onceFinished [] onceFinished := .start
  have hfunc := hnone.next (.adds (.importFunction "m" "func" 0 rfl))
  have htable := (hfunc.next (.adds (.addTable ⟨true, -17⟩ 1 none rfl))).next
    (.adds (.importTable "m" "table" ⟨true, -16⟩ 0 (some 9) rfl))
  have hexported := htable.next (.adds (.addExport "run" (.func 0) rfl))
  have hworked := hexported.next (.works (k := 0) [0x66] reworked rfl)
  have hfinished := hworked.next (.finishes (k := 0) [] rfl rfl rfl)
  exact ⟨_, hfinished⟩

theorem twiceFinished_indexed : ∃ out, twiceFinished.program.toModule = .ok out ∧
    twiceFinished.program.numbering = ⟨[1, 0, 2], [1, 0], [1, 0]⟩ ∧
    twiceFinished.Means (.built 0 [] 0) ∧ twiceFinished.program.LoweredTo out ∧
    twiceFinished.program.ShowsBodies out := by
  obtain ⟨issued, hs⟩ := onceFinished_reached
  obtain ⟨later, ht⟩ := twiceFinished_reached
  have hrun : twiceFinished.program.toModule.isOk = true := by decide +kernel
  cases hout : twiceFinished.program.toModule with
  | error e =>
    rw [hout] at hrun
    cases hrun
  | ok out =>
    obtain ⟨hissued, hkept, -, -, hlowered⟩ := runs_indexed (.inl rfl) hs ht
    have hfirst := hissued _ (mem_append_right _ (mem_singleton_self _))
    exact ⟨out, rfl, by decide +kernel, hkept _ hfirst, hlowered out hout⟩

end Workbench

end HostCatch
