import HostCatch.Wire.Types

namespace HostCatch.Reader

/-- The groups of a number as they stand, however many. -/
def rawGroups : Reader Bytes := fun c =>
  let (more, rest) := c.rest.span (0x80 ≤ ·)
  match rest with
  | [] => .error .endOfInput ⟨[], c.pos + more.length⟩
  | last :: rest => .ok (more ++ [last]) ⟨rest, c.pos + more.length + 1⟩

/-- How many numbers follow a constant instruction on structures and arrays. -/
def constGcOperands (sub : UInt32) : Nat :=
  if sub ∈ [0x00, 0x01, 0x06, 0x07] then 1
  else if sub ∈ [0x08, 0x09, 0x0A] then 2
  else 0

/-- The immediate of a constant instruction as it stands, second opcodes in their shortest form.
Opcodes that no constant expression may hold are taken to have none. -/
def constImm (op : UInt8) : Reader Bytes :=
  if op ∈ [0x41, 0x42, 0x23, 0xD0, 0xD2] then rawGroups
  else if op = 0x43 then bytes 4
  else if op = 0x44 then bytes 8
  else if op = 0xFD then do
    let sub ← u32
    let operand ← if sub = 0x0C then bytes 16 else pure []
    pure (Leb128.u32 sub ++ operand)
  else if op = 0xFB then do
    let sub ← u32
    let operands ← times rawGroups (constGcOperands sub)
    pure (Leb128.u32 sub ++ operands.flatten)
  else pure []

/-- A constant expression up to its `end`, in at most `bound` instructions. -/
def constExprWithin : Nat → Reader Bytes
  | 0 => throw .endOfInput
  | bound + 1 => do
    let op ← byte
    if op = 0x0B then pure [op]
    else
      let imm ← constImm op
      let rest ← constExprWithin bound
      pure (op :: (imm ++ rest))

/-- A constant expression up to its `end`. Each instruction takes a byte or more, so what is left
to read bounds their number. -/
def constExpr : Reader Bytes := fun c =>
  constExprWithin c.rest.length c

end HostCatch.Reader
