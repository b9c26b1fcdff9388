import HostCatch.Text.Basic

namespace HostCatch

/-- Why bytes could not be read as a module, a section or an instruction. -/
inductive ReadFault where
  | endOfInput
  | unexpectedEnd
  | overflow
  | overflowAt (pos : Nat)
  | invalidName (pos : Nat)
  | notSeekable
  | negativeSeek
  | badMagic
  | badVersion
  | sectionOrder (id : UInt8)
  | unknownSection (id : UInt8)
  | typeForm (form : UInt8)
  | subtypeForm (form : UInt8)
  | compositeForm (form : UInt8)
  | importKind (kind : UInt8)
  | exportKind (kind : UInt8)
  | elementFlags (flags : UInt32)
  | dataFlags (flags : UInt32)
  | limits (min max : UInt64)
  | tablePrefix (found : UInt8)
  | opcode (op : UInt8)
  | miscOpcode (sub : UInt32)
  | gcOpcode (sub : UInt32)
  | nameLength (length : UInt32) (remaining : Nat)
  | subsectionSize (id : UInt8) (size : UInt32) (remaining : Nat)
  /-- A fault inside a subsection of the debug names. -/
  | inSubsection (id : UInt8) (cause : ReadFault)
  /-- A fault inside the payload of a named section. -/
  | inSection (name : String) (cause : ReadFault)
  /-- A fault of the frame around the sections, with the offset reached. -/
  | located (place : String) (pos : Nat) (cause : ReadFault)
  deriving DecidableEq

namespace ReadFault

def message : ReadFault → String
  | endOfInput => "EOF"
  | unexpectedEnd => "unexpected EOF"
  | overflow => "leb128: overflow"
  | overflowAt pos => s!"at position {pos}: leb128: overflow"
  | invalidName pos => s!"at position {pos}: invalid UTF-8 in name"
  | notSeekable => "reset needs a bytes.Reader"
  | negativeSeek => "bytes.Reader.Seek: negative position"
  | badMagic => "invalid wasm magic number"
  | badVersion => "invalid wasm version"
  | sectionOrder id => s!"section {id} appears out of order"
  | unknownSection id => "unknown section ID: " ++ code id
  | typeForm form => "unsupported type form " ++ code form
  | subtypeForm form => "invalid subtype form " ++ code form
  | compositeForm form => "invalid composite type " ++ code form
  | importKind kind => s!"unknown import kind: {kind}"
  | exportKind kind => "invalid export kind: " ++ code kind
  | elementFlags flags => s!"invalid element segment flags: {flags}"
  | dataFlags flags => s!"invalid data segment flags: {flags}"
  | limits min max => s!"limits min ({min}) exceeds max ({max})"
  | tablePrefix found => "expected 0x00 after 0x40, got " ++ code found
  | opcode op => "unknown opcode: " ++ code op
  | miscOpcode sub => "unknown 0xFC sub-opcode: 0x" ++ hexText 2 sub.toNat
  | gcOpcode sub => "unknown 0xFB sub-opcode: 0x" ++ hexText 2 sub.toNat
  | nameLength length remaining => s!"name length {length} exceeds remaining {remaining}"
  | subsectionSize id size remaining =>
    s!"name subsection {id}: size {size} exceeds remaining {remaining}"
  | inSubsection id cause => s!"name subsection {id}: " ++ cause.message
  | inSection name cause => name ++ " section: " ++ cause.message
  | located place pos cause =>
    let place := if place = "" then "" else place ++ " "
    s!"wasm: {place}at position {pos}: " ++ cause.message

/-- The fault that a chain of contexts ends in. -/
def root : ReadFault → ReadFault
  | inSection _ cause => cause.root
  | inSubsection _ cause => cause.root
  | located _ _ cause => cause.root
  | fault => fault

end ReadFault

end HostCatch
