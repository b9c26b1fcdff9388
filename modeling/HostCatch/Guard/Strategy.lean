import HostCatch.Program.Basic
import HostCatch.Text.Quoted

namespace HostCatch

/-- Which instructions catch exceptions: `try` with handlers, or `try_table`. -/
inductive Strategy where
  | none
  | legacy
  | modern
  | other (number : Int)
  deriving DecidableEq

namespace Strategy

def ofInt : Int → Strategy
  | 0 => none
  | 1 => legacy
  | 2 => modern
  | number => other number

def toInt : Strategy → Int
  | none => 0
  | legacy => 1
  | modern => 2
  | other number => number

def text : Strategy → String
  | none => "none"
  | legacy => "legacy"
  | modern => "modern"
  | other number => s!"Strategy({number})"

/-- The strategy that a text names; `none` is one to be found out. -/
def ofText (s : String) : Except Fault Strategy :=
  if s = "" ∨ s = "auto" ∨ s = "none" then .ok none
  else if s = "legacy" then .ok legacy
  else if s = "modern" then .ok modern
  else .error (.diagnosed (.invalidInput .config (utf8 ("unknown strategy " ++ quoted s))))

/-- The strategies that functions use: `try_table` in the first function that has one decides, and
a `try` counts when no function has. -/
def detectAmong : Strategy → List Function → Except Abort Strategy
  | found, [] => .ok found
  | found, f :: fs =>
    match f.body? with
    | Option.none => detectAmong found fs
    | some body => do
      let visits ← body.walk
      let isModern : Instr → Bool
        | .tryTable _ _ => true
        | _ => false
      let isLegacy : Instr → Bool
        | .tryCatch _ _ _ => true
        | _ => false
      if visits.any (isModern ·.instr) then pure modern
      else if visits.any (isLegacy ·.instr) then detectAmong legacy fs
      else detectAmong found fs

/-- The strategy that the code of a program already uses. -/
def detect (p : Program) : Except Abort Strategy :=
  detectAmong none p.funcs

end Strategy

end HostCatch
