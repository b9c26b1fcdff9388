import HostCatch.Wire.Reader

namespace HostCatch.Leb128

/-- Seven-bit groups, low groups first; all but the last have their top bit set. No more than
`more + 1` groups are taken. -/
def groups : Nat → Reader Bytes
  | 0 => do
    let b ← Reader.byte
    if b < 0x80 then pure [b] else throw .overflow
  | more + 1 => do
    let b ← Reader.byte
    if b < 0x80 then pure [b]
    else do
      let bs ← groups more
      pure (b :: bs)

/-- The groups that a number of `bits` bits may take, at least one. -/
def width (bits : Nat) : Nat :=
  (bits + 6) / 7 - 1

/-- The number that the groups spell, without a bound. -/
def value : Bytes → Nat
  | [] => 0
  | b :: bs => b.toNat % 128 + 128 * value bs

/-- The groups as a number in two's complement: bit six of the last group is the sign, unless the
groups already fill 64 bits. -/
def signedValue (bs : Bytes) : Int :=
  if 7 * bs.length < 64 ∧ 0x40 ≤ bs.getLastD 0 % 128 then
    value bs - (1 <<< (7 * bs.length) : Nat)
  else value bs

/-- The low 64 bits of an unsigned number in at most as many groups as `bits` bits need. -/
def readUnsigned (bits : Nat) : Reader UInt64 := do
  let bs ← groups (width bits)
  pure (UInt64.ofNat (value bs))

/-- The low 64 bits of a signed number in at most as many groups as `bits` bits need. -/
def readSigned (bits : Nat) : Reader Int64 := do
  let bs ← groups (width bits)
  pure (Int64.ofInt (signedValue bs))

def readU32 : Reader UInt32 := do
  let v ← readUnsigned 32
  pure v.toUInt32

def readU64 : Reader UInt64 :=
  readUnsigned 64

def readS32 : Reader Int32 := do
  let v ← readSigned 32
  pure v.toInt32

def readS64 : Reader Int64 :=
  readSigned 64

/-- The shortest groups of a number. -/
def unsigned (n : Nat) : Bytes :=
  if n < 128 then [UInt8.ofNat n]
  else UInt8.ofNat (n % 128 + 128) :: unsigned (n / 128)

/-- The shortest groups of a number in two's complement. -/
def signed (v : Int) : Bytes :=
  if -64 ≤ v ∧ v < 64 then [UInt8.ofNat (v % 128).toNat]
  else UInt8.ofNat ((v % 128).toNat + 128) :: signed (v / 128)
termination_by v.natAbs
decreasing_by omega

def u32 (v : UInt32) : Bytes :=
  unsigned v.toNat

def u64 (v : UInt64) : Bytes :=
  unsigned v.toNat

def s32 (v : Int32) : Bytes :=
  signed v.toInt

def s64 (v : Int64) : Bytes :=
  signed v.toInt

end HostCatch.Leb128
