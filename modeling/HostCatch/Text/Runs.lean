namespace HostCatch

/-- Whether a code point lies in one of the runs. They are given by lengths: of what is left out before
a run and of the run itself, by turns. -/
def inRuns : List Nat → Nat → Bool
  | gap :: run :: rest, n => gap ≤ n && (n < gap + run || inRuns rest (n - (gap + run)))
  | _, _ => false

end HostCatch
