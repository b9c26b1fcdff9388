import HostCatch.Text.Width

namespace HostCatch

/-- What of a cluster decides whether the next character belongs to it. -/
inductive ClusterEnd where
  | plain
  /-- A control, which stands alone. -/
  | control
  | leading
  | initial
  /-- A sound that a vowel or a final sound may follow. -/
  | vowel
  /-- A sound that only a final sound may follow. -/
  | final
  /-- A pictograph, or one with extending characters. -/
  | picture
  /-- The same and a joiner. -/
  | joined
  /-- Half of a flag that waits for the other. -/
  | half
  deriving DecidableEq

namespace ClusterEnd

/-- Whether a character belongs to the cluster before it. -/
def takes : ClusterEnd → ClusterClass → Bool
  | control, _ => false
  | _, .control => false
  | _, .extending => true
  | _, .joiner => true
  | _, .spacing => true
  | leading, _ => true
  | initial, .initial => true
  | initial, .vowel => true
  | initial, .openSyllable => true
  | initial, .closedSyllable => true
  | vowel, .vowel => true
  | vowel, .final => true
  | final, .final => true
  | joined, .pictograph => true
  | half, .regional => true
  | _, _ => false

/-- The end of a cluster after one more character. -/
def next : ClusterEnd → ClusterClass → ClusterEnd
  | _, .control => control
  | _, .leading => leading
  | _, .initial => initial
  | _, .vowel => vowel
  | _, .openSyllable => vowel
  | _, .final => final
  | _, .closedSyllable => final
  | _, .pictograph => picture
  | picture, .extending => picture
  | picture, .joiner => joined
  | half, .regional => plain
  | _, .regional => half
  | _, _ => plain

end ClusterEnd

/-- A visible unit of one or more characters: the class of the first, the columns taken so far and
the end. -/
structure Cluster where
  first : ClusterClass
  width : Nat
  last : ClusterEnd

namespace Cluster

def start (c : Char) : Cluster :=
  let cls := ClusterClass.ofCode c.toNat
  ⟨cls, charWidth cls c, ClusterEnd.next .plain cls⟩

/-- The width with one more character. A pictograph keeps its own, unless a selector asks for the
narrow or the wide form; flags and syllables built from an initial sound keep theirs too. -/
def widthWith (k : Cluster) (cls : ClusterClass) (c : Char) : Nat :=
  match k.first with
  | .pictograph => if c.toNat = 0xFE0E then 1 else if c.toNat = 0xFE0F then 2 else k.width
  | .regional => k.width
  | .initial => k.width
  | _ => k.width + charWidth cls c

/-- The cluster with the next character, if that belongs to it. -/
def push? (k : Cluster) (c : Char) : Option Cluster :=
  let cls := ClusterClass.ofCode c.toNat
  if k.last.takes cls then some { k with width := k.widthWith cls c, last := k.last.next cls }
  else none

end Cluster

/-- The columns of characters that follow a cluster, and of that cluster. -/
def widthFrom (k : Cluster) : List Char → Nat
  | [] => k.width
  | c :: cs =>
    match k.push? c with
    | some k => widthFrom k cs
    | none => k.width + widthFrom (.start c) cs

/-- The columns that a text takes, cluster by cluster. -/
def textWidth (s : String) : Nat :=
  match s.toList with
  | [] => 0
  | c :: cs => widthFrom (.start c) cs

end HostCatch
