import HostCatch.Program.Basic

namespace HostCatch

/-- Functions and what is to be called in their place; no function stands twice on the left. -/
abbrev Targets := List (FuncId × FuncId)

namespace Targets

/-- Adds a pair, in place of one for the same function. -/
def insert (t : Targets) (source target : FuncId) : Targets :=
  t.filter (·.1 ≠ source) ++ [(source, target)]

/-- The pairs of a list, of which later ones win. -/
def ofList (pairs : List (FuncId × FuncId)) : Targets :=
  pairs.foldl (fun t (source, target) => t.insert source target) []

def get? (t : Targets) (func : FuncId) : Option FuncId :=
  (t.find? (·.1 = func)).map Prod.snd

/-- Whether a function stands in for another. -/
def hasTarget (t : Targets) (func : FuncId) : Bool :=
  t.any (·.2 = func)

end Targets

namespace Body

/-- Retargets the call at a place, if it is one that has a target, and counts it. -/
def retargetAt (t : Targets) (done : Nat × Body) (seq : SeqId) (index : Nat) : Nat × Body :=
  match ((done.2.instr? seq index).bind Instr.callee?).bind t.get? with
  | some target => (done.1 + 1, done.2.change seq index (Instr.retarget target))
  | none => done

/-- Retargets the direct calls that can be reached, and counts them. -/
def retarget (t : Targets) (b : Body) : Except Abort (Nat × Body) := do
  let visits ← b.walk
  pure (visits.foldl (fun done v => retargetAt t done v.seq v.index) (0, b))

end Body

namespace Program

/-- Retargets the direct calls of a function that does not stand in for another. -/
def retargetFunction (t : Targets) (id : FuncId) (f : Function) : Except Abort (Nat × Function) :=
  match f.kind with
  | .imported _ => .ok (0, f)
  | .defined body =>
    if t.hasTarget id then .ok (0, f)
    else do
      let (count, body) ← body.retarget t
      pure (count, { f with kind := .defined body })

/-- Retargets the direct calls of all functions but those that stand in for others, and counts
them. -/
def retargetCalls (p : Program) (t : Targets) : Except Abort (Nat × Program) :=
  if t = [] then .ok (0, p)
  else do
    let results ← p.funcs.zipIdx.mapM fun (f, id) => retargetFunction t id f
    pure ((results.map Prod.fst).foldr (· + ·) 0, { p with funcs := results.map Prod.snd })

end Program

end HostCatch
