import HostCatch.Fault.Read

namespace HostCatch

/-- The bytes still to be read and how many were read before them. -/
structure Cursor where
  rest : Bytes
  pos : Nat
  deriving DecidableEq

namespace Cursor

def start (data : Bytes) : Cursor :=
  ⟨data, 0⟩

/-- The cursor at an offset into the data; an offset behind the end leaves nothing to read. -/
def seek (data : Bytes) (offset : Int) : Except ReadFault Cursor :=
  if offset < 0 then .error .negativeSeek
  else .ok ⟨data.drop offset.toNat, offset.toNat⟩

end Cursor

/-- A reader moves the cursor; what it consumed before a fault stays consumed. -/
abbrev Reader := EStateM ReadFault Cursor

namespace Reader

variable {α : Type}

def byte : Reader UInt8 := fun c =>
  match c.rest with
  | [] => .error .endOfInput c
  | b :: rest => .ok b ⟨rest, c.pos + 1⟩

/-- The next `n` bytes; when there are fewer, all of them are consumed. -/
def bytes (n : Nat) : Reader Bytes := fun c =>
  if n ≤ c.rest.length then .ok (c.rest.take n) ⟨c.rest.drop n, c.pos + n⟩
  else .error .endOfInput ⟨[], c.pos + c.rest.length⟩

/-- As `bytes`, but a shortage after some bytes is told from an input that ended before. -/
def wholeBytes (n : Nat) : Reader Bytes := fun c =>
  match bytes n c with
  | .ok data rest => .ok data rest
  | .error fault rest => .error (if c.rest = [] then fault else .unexpectedEnd) rest

def remaining : Reader Bytes := fun c =>
  .ok c.rest ⟨[], c.pos + c.rest.length⟩

def atEnd : Reader Bool := fun c =>
  .ok c.rest.isEmpty c

/-- The reader `n` times over. -/
def times (p : Reader α) : Nat → Reader (List α)
  | 0 => pure []
  | n + 1 => do
    let a ← p
    let as ← times p n
    pure (a :: as)

/-- Faults of the reader get the place and the offset reached. -/
def locating (place : String) (p : Reader α) : Reader α := fun c =>
  match p c with
  | .ok a rest => .ok a rest
  | .error fault rest => .error (.located place rest.pos fault) rest

/-- Faults of the reader get the name of the section. -/
def within (name : String) (p : Reader α) : Reader α := fun c =>
  match p c with
  | .ok a rest => .ok a rest
  | .error fault rest => .error (.inSection name fault) rest

/-- What the reader makes of the data from its start; data it leaves is not looked at. -/
def run (p : Reader α) (data : Bytes) : Except ReadFault α :=
  match p (.start data) with
  | .ok a _ => .ok a
  | .error fault _ => .error fault

/-- The reader on data of its own, with the cursor of the surrounding data left alone. -/
def inside (data : Bytes) (p : Reader α) : Reader α := fun c =>
  match p.run data with
  | .ok a => .ok a c
  | .error fault => .error fault c

end Reader

end HostCatch
