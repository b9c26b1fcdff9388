import HostCatch.Wire.Leb128

namespace HostCatch

namespace Reader

variable {α : Type}

/-- An overflow inside a section is reported with the offset behind the groups that were read. -/
def placingOverflow (p : Reader α) : Reader α := fun c =>
  match p c with
  | .error .overflow rest => .error (.overflowAt rest.pos) rest
  | result => result

def u32 : Reader UInt32 :=
  placingOverflow Leb128.readU32

def u64 : Reader UInt64 :=
  placingOverflow Leb128.readU64

/-- The number that bytes spell, low byte first. -/
def littleEndian (bs : Bytes) : Nat :=
  bs.foldr (fun b n => b.toNat + 256 * n) 0

def u32le : Reader UInt32 := do
  let bs ← bytes 4
  pure (UInt32.ofNat (littleEndian bs))

/-- A text with its length in bytes before it. -/
def name : Reader String := do
  let n ← u32
  let bs ← bytes n.toNat
  match utf8Text? bs with
  | some s => pure s
  | none => fun c => .error (.invalidName c.pos) c

/-- A list with its length before it. -/
def list (p : Reader α) : Reader (List α) := do
  let n ← u32
  times p n.toNat

end Reader

namespace Wire

/-- The low bytes of a number, low byte first. -/
def littleEndian : Nat → Nat → Bytes
  | 0, _ => []
  | n + 1, v => UInt8.ofNat v :: littleEndian n (v / 256)

def u32le (v : UInt32) : Bytes :=
  littleEndian 4 v.toNat

def u64le (v : UInt64) : Bytes :=
  littleEndian 8 v.toNat

/-- A length, as the format counts: modulo 2^32. -/
def size (n : Nat) : Bytes :=
  Leb128.u32 (UInt32.ofNat n)

def name (s : String) : Bytes :=
  size (utf8 s).length ++ utf8 s

/-- A list with its length before it. -/
def list {α : Type} (write : α → Bytes) (as : List α) : Bytes :=
  size as.length ++ as.flatMap write

end Wire

end HostCatch
