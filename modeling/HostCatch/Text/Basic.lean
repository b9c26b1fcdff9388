namespace HostCatch

/-- A byte string. Names and messages are byte strings too, because a debug name may hold bytes that
spell no text. -/
abbrev Bytes := List UInt8

/-- The UTF-8 bytes of a text. -/
def utf8 (s : String) : Bytes :=
  s.toByteArray.data.toList

/-- The text that the bytes spell, when they are valid UTF-8. -/
def utf8Text? (bytes : Bytes) : Option String :=
  String.fromUTF8? ⟨bytes.toArray⟩

theorem utf8Text?_utf8 (s : String) : utf8Text? (utf8 s) = some s := by
  have whole : (⟨(utf8 s).toArray⟩ : ByteArray) = s.toByteArray := by
    simp [utf8]
  rw [utf8Text?, whole, String.fromUTF8?, dif_pos s.isValidUTF8]
  rfl

/-- Hexadecimal digits in lower case, at least `width` of them. -/
def hexText (width n : Nat) : String :=
  let digits := Nat.toDigits 16 n
  String.ofList (List.replicate (width - digits.length) '0' ++ digits)

/-- The two-digit form in which messages show a code. -/
def code (b : UInt8) : String :=
  "0x" ++ hexText 2 b.toNat

end HostCatch
