namespace HostCatch

/-- So many capitals from `first` on, each with its lower case at distance `shift`. At distance one the
capitals alternate with their lower cases. -/
structure CaseRun where
  first : Nat
  count : Nat
  shift : Int

namespace CaseRun

def step (run : CaseRun) : Nat :=
  if run.shift == 1 then 2 else 1

def holds (run : CaseRun) (c : Nat) : Bool :=
  run.first ≤ c && (c - run.first) % run.step == 0 && (c - run.first) / run.step < run.count

/-- The runs of the one-to-one lower-case mapping. -/
def table : List CaseRun :=
  [
    ⟨0x41, 26, 32⟩, ⟨0xC0, 23, 32⟩, ⟨0xD8, 7, 32⟩, ⟨0x100, 24, 1⟩, ⟨0x130, 1, -199⟩, ⟨0x132, 3, 1⟩,
    ⟨0x139, 8, 1⟩, ⟨0x14A, 23, 1⟩, ⟨0x178, 1, -121⟩, ⟨0x179, 3, 1⟩, ⟨0x181, 1, 210⟩, ⟨0x182, 2, 1⟩,
    ⟨0x186, 1, 206⟩, ⟨0x187, 1, 1⟩, ⟨0x189, 2, 205⟩, ⟨0x18B, 1, 1⟩, ⟨0x18E, 1, 79⟩, ⟨0x18F, 1, 202⟩,
    ⟨0x190, 1, 203⟩, ⟨0x191, 1, 1⟩, ⟨0x193, 1, 205⟩, ⟨0x194, 1, 207⟩, ⟨0x196, 1, 211⟩,
    ⟨0x197, 1, 209⟩, ⟨0x198, 1, 1⟩, ⟨0x19C, 1, 211⟩, ⟨0x19D, 1, 213⟩, ⟨0x19F, 1, 214⟩,
    ⟨0x1A0, 3, 1⟩, ⟨0x1A6, 1, 218⟩, ⟨0x1A7, 1, 1⟩, ⟨0x1A9, 1, 218⟩, ⟨0x1AC, 1, 1⟩, ⟨0x1AE, 1, 218⟩,
    ⟨0x1AF, 1, 1⟩, ⟨0x1B1, 2, 217⟩, ⟨0x1B3, 2, 1⟩, ⟨0x1B7, 1, 219⟩, ⟨0x1B8, 1, 1⟩, ⟨0x1BC, 1, 1⟩,
    ⟨0x1C4, 1, 2⟩, ⟨0x1C5, 1, 1⟩, ⟨0x1C7, 1, 2⟩, ⟨0x1C8, 1, 1⟩, ⟨0x1CA, 1, 2⟩, ⟨0x1CB, 9, 1⟩,
    ⟨0x1DE, 9, 1⟩, ⟨0x1F1, 1, 2⟩, ⟨0x1F2, 2, 1⟩, ⟨0x1F6, 1, -97⟩, ⟨0x1F7, 1, -56⟩, ⟨0x1F8, 20, 1⟩,
    ⟨0x220, 1, -130⟩, ⟨0x222, 9, 1⟩, ⟨0x23A, 1, 10795⟩, ⟨0x23B, 1, 1⟩, ⟨0x23D, 1, -163⟩,
    ⟨0x23E, 1, 10792⟩, ⟨0x241, 1, 1⟩, ⟨0x243, 1, -195⟩, ⟨0x244, 1, 69⟩, ⟨0x245, 1, 71⟩,
    ⟨0x246, 5, 1⟩, ⟨0x370, 2, 1⟩, ⟨0x376, 1, 1⟩, ⟨0x37F, 1, 116⟩, ⟨0x386, 1, 38⟩, ⟨0x388, 3, 37⟩,
    ⟨0x38C, 1, 64⟩, ⟨0x38E, 2, 63⟩, ⟨0x391, 17, 32⟩, ⟨0x3A3, 9, 32⟩, ⟨0x3CF, 1, 8⟩, ⟨0x3D8, 12, 1⟩,
    ⟨0x3F4, 1, -60⟩, ⟨0x3F7, 1, 1⟩, ⟨0x3F9, 1, -7⟩, ⟨0x3FA, 1, 1⟩, ⟨0x3FD, 3, -130⟩,
    ⟨0x400, 16, 80⟩, ⟨0x410, 32, 32⟩, ⟨0x460, 17, 1⟩, ⟨0x48A, 27, 1⟩, ⟨0x4C0, 1, 15⟩, ⟨0x4C1, 7, 1⟩,
    ⟨0x4D0, 48, 1⟩, ⟨0x531, 38, 48⟩, ⟨0x10A0, 38, 7264⟩, ⟨0x10C7, 1, 7264⟩, ⟨0x10CD, 1, 7264⟩,
    ⟨0x13A0, 80, 38864⟩, ⟨0x13F0, 6, 8⟩, ⟨0x1C89, 1, 1⟩, ⟨0x1C90, 43, -3008⟩, ⟨0x1CBD, 3, -3008⟩,
    ⟨0x1E00, 75, 1⟩, ⟨0x1E9E, 1, -7615⟩, ⟨0x1EA0, 48, 1⟩, ⟨0x1F08, 8, -8⟩, ⟨0x1F18, 6, -8⟩,
    ⟨0x1F28, 8, -8⟩, ⟨0x1F38, 8, -8⟩, ⟨0x1F48, 6, -8⟩, ⟨0x1F59, 1, -8⟩, ⟨0x1F5B, 1, -8⟩,
    ⟨0x1F5D, 1, -8⟩, ⟨0x1F5F, 1, -8⟩, ⟨0x1F68, 8, -8⟩, ⟨0x1F88, 8, -8⟩, ⟨0x1F98, 8, -8⟩,
    ⟨0x1FA8, 8, -8⟩, ⟨0x1FB8, 2, -8⟩, ⟨0x1FBA, 2, -74⟩, ⟨0x1FBC, 1, -9⟩, ⟨0x1FC8, 4, -86⟩,
    ⟨0x1FCC, 1, -9⟩, ⟨0x1FD8, 2, -8⟩, ⟨0x1FDA, 2, -100⟩, ⟨0x1FE8, 2, -8⟩, ⟨0x1FEA, 2, -112⟩,
    ⟨0x1FEC, 1, -7⟩, ⟨0x1FF8, 2, -128⟩, ⟨0x1FFA, 2, -126⟩, ⟨0x1FFC, 1, -9⟩, ⟨0x2126, 1, -7517⟩,
    ⟨0x212A, 1, -8383⟩, ⟨0x212B, 1, -8262⟩, ⟨0x2132, 1, 28⟩, ⟨0x2160, 16, 16⟩, ⟨0x2183, 1, 1⟩,
    ⟨0x24B6, 26, 26⟩, ⟨0x2C00, 48, 48⟩, ⟨0x2C60, 1, 1⟩, ⟨0x2C62, 1, -10743⟩, ⟨0x2C63, 1, -3814⟩,
    ⟨0x2C64, 1, -10727⟩, ⟨0x2C67, 3, 1⟩, ⟨0x2C6D, 1, -10780⟩, ⟨0x2C6E, 1, -10749⟩,
    ⟨0x2C6F, 1, -10783⟩, ⟨0x2C70, 1, -10782⟩, ⟨0x2C72, 1, 1⟩, ⟨0x2C75, 1, 1⟩, ⟨0x2C7E, 2, -10815⟩,
    ⟨0x2C80, 50, 1⟩, ⟨0x2CEB, 2, 1⟩, ⟨0x2CF2, 1, 1⟩, ⟨0xA640, 23, 1⟩, ⟨0xA680, 14, 1⟩,
    ⟨0xA722, 7, 1⟩, ⟨0xA732, 31, 1⟩, ⟨0xA779, 2, 1⟩, ⟨0xA77D, 1, -35332⟩, ⟨0xA77E, 5, 1⟩,
    ⟨0xA78B, 1, 1⟩, ⟨0xA78D, 1, -42280⟩, ⟨0xA790, 2, 1⟩, ⟨0xA796, 10, 1⟩, ⟨0xA7AA, 1, -42308⟩,
    ⟨0xA7AB, 1, -42319⟩, ⟨0xA7AC, 1, -42315⟩, ⟨0xA7AD, 1, -42305⟩, ⟨0xA7AE, 1, -42308⟩,
    ⟨0xA7B0, 1, -42258⟩, ⟨0xA7B1, 1, -42282⟩, ⟨0xA7B2, 1, -42261⟩, ⟨0xA7B3, 1, 928⟩, ⟨0xA7B4, 8, 1⟩,
    ⟨0xA7C4, 1, -48⟩, ⟨0xA7C5, 1, -42307⟩, ⟨0xA7C6, 1, -35384⟩, ⟨0xA7C7, 2, 1⟩, ⟨0xA7CB, 1, -42343⟩,
    ⟨0xA7CC, 8, 1⟩, ⟨0xA7DC, 1, -42561⟩, ⟨0xA7F5, 1, 1⟩, ⟨0xFF21, 26, 32⟩, ⟨0x10400, 40, 40⟩,
    ⟨0x104B0, 36, 40⟩, ⟨0x10570, 11, 39⟩, ⟨0x1057C, 15, 39⟩, ⟨0x1058C, 7, 39⟩, ⟨0x10594, 2, 39⟩,
    ⟨0x10C80, 51, 64⟩, ⟨0x10D50, 22, 32⟩, ⟨0x118A0, 32, 32⟩, ⟨0x16E40, 32, 32⟩, ⟨0x16EA0, 25, 27⟩,
    ⟨0x1E900, 34, 34⟩]

end CaseRun

/-- The lower case of a character by the one-to-one mapping; a character without one stays. -/
def lowerChar (c : Char) : Char :=
  match CaseRun.table.find? (·.holds c.toNat) with
  | some run => Char.ofNat (c.toNat + run.shift).toNat
  | none => c

def lowerText (s : String) : String :=
  s.map lowerChar

end HostCatch
