import HostCatch.Guard.Matcher

namespace HostCatch

open List

namespace Pattern

variable {text module name : String}

/-- What stands before and behind the last dot. -/
def splitLastDot? : List Char → Option (List Char × List Char)
  | [] => none
  | c :: cs =>
    match splitLastDot? cs with
    | some (before, behind) => some (c :: before, behind)
    | none => if c = '.' then some ([], cs) else none

theorem splitLastDot?_eq_none_iff {cs : List Char} : splitLastDot? cs = none ↔ '.' ∉ cs := by
  fun_induction splitLastDot? cs with
  | case1 => simp
  | case2 c cs before behind hsplit ih => simp_all
  | case3 cs hsplit ih => simp
  | case4 c cs hsplit hc ih => simp_all [eq_comm]

/-- No dot stands behind the last one. -/
theorem splitLastDot?_eq_some_iff {cs before behind : List Char} :
    splitLastDot? cs = some (before, behind) ↔ cs = before ++ '.' :: behind ∧ '.' ∉ behind := by
  induction cs generalizing before with
  | nil => simp [splitLastDot?]
  | cons c cs ih =>
    by_cases hdot : '.' ∈ cs
    · obtain ⟨⟨first, last⟩, hsplit⟩ := Option.ne_none_iff_exists'.mp (mt splitLastDot?_eq_none_iff.mp
        (not_not_intro hdot))
      rw [splitLastDot?, hsplit]
      cases before with
      | nil =>
        have hlast : cs = behind → '.' ∈ behind := fun heq => heq ▸ hdot
        simpa using fun _ => hlast
      | cons d before =>
        rw [cons_append, List.cons.injEq, and_assoc, ← ih, hsplit]
        simp [and_assoc]
    · rw [splitLastDot?, splitLastDot?_eq_none_iff.mpr hdot]
      have hnone (before : List Char) : cs ≠ before ++ '.' :: behind := fun heq => hdot (by simp [heq])
      cases before with
      | nil =>
        have hclear : cs = behind → '.' ∉ behind := fun heq => heq ▸ hdot
        by_cases hc : c = '.'
        · simpa [hc] using hclear
        · simp [hc]
      | cons d before => simp [hnone]

/-- A text ends in a dot and a star. -/
def isWide (text : String) : Bool :=
  ['.', '*'].isSuffixOf text.toList

/-- What a text asks for: all imports, those of a module, the one whose module and name stand before and
behind the last dot, or those of a name. -/
def Selects (module name text : String) : Prop :=
  text = "*" ∨ text = module ++ ".*" ∨
    (isWide text = false ∧ splitLastDot? text.toList = some (module.toList, name.toList)) ∨
    (text ≠ "" ∧ '.' ∉ text.toList ∧ text = name)

instance (module name text : String) : Decidable (Selects module name text) :=
  inferInstanceAs (Decidable (_ ∨ _ ∨ _ ∨ _))

/-- A text is the module and the name of an import with a dot between them, but the last dot of the text is
one of the name. -/
def Strays (module name text : String) : Prop :=
  '.' ∈ name.toList ∧ isWide text = false ∧ text = importText module name

theorem isWide_iff : isWide text = true ↔ ∃ module, text = module ++ ".*" := by
  rw [isWide, isSuffixOf_iff_suffix]
  constructor
  · rintro ⟨chars, hchars⟩
    exact ⟨String.ofList chars, by rw [← String.toList_inj]; simpa using hchars.symm⟩
  · rintro ⟨module, rfl⟩
    exact ⟨module.toList, by simp⟩

theorem eq_importText_iff (h : isWide text = false) : text = importText module name ↔
      splitLastDot? text.toList = some (module.toList, name.toList) ∨ Strays module name text := by
  have hchars : text = importText module name ↔ text.toList = module.toList ++ '.' :: name.toList := by
    rw [← String.toList_inj, importText]
    simp
  rw [splitLastDot?_eq_some_iff, Strays, ← hchars]
  by_cases hdot : '.' ∈ name.toList <;> simp [hdot, h]

theorem Strays.not_selects (h : Strays module name text) : ¬ Selects module name text := by
  obtain ⟨hdot, hwide, htext⟩ := h
  have hinner : '.' ∈ text.toList := by simp [htext, importText]
  rintro (rfl | rfl | ⟨-, hsplit⟩ | ⟨-, hnone, -⟩)
  · simp at hinner
  · rw [isWide_iff.mpr ⟨module, rfl⟩] at hwide
    cases hwide
  · exact (splitLastDot?_eq_some_iff.mp hsplit).2 hdot
  · exact hnone hinner

/-- The pattern that a text spells accepts what the text asks for, and imports whose names have dots
besides. -/
theorem accepts_ofText?_iff {s : String} :
    (∃ pattern, ofText? s = some pattern ∧ pattern.accepts module name = true) ↔
      Selects module name (trimText s) ∨ Strays module name (trimText s) := by
  unfold ofText?
  generalize trimText s = text
  by_cases hempty : text = ""
  · subst hempty
    have hnone : "" ≠ importText module name := by
      intro heq
      simpa [importText] using congrArg String.toList heq
    have hwide : "" ≠ module ++ ".*" := by
      intro heq
      simpa using congrArg String.toList heq
    simp [Selects, Strays, splitLastDot?, hnone, hwide]
  have hchars : text.toList ≠ [] := by simpa using hempty
  by_cases hstar : text = "*"
  · subst hstar
    simp [Selects, Pattern.accepts]
  have hstars : text.toList ≠ ['*'] := fun heq => hstar (String.toList_inj.mp heq)
  dsimp only
  rw [if_neg hchars, if_neg hstars, ← isWide]
  cases hwide : isWide text with
  | true =>
    rw [if_pos rfl]
    obtain ⟨found, rfl⟩ := isWide_iff.mp hwide
    have hends : found ++ ".*" = module ++ ".*" ↔ found = module := by
      rw [← String.toList_inj, ← String.toList_inj]
      simp
    simp [Selects, Strays, hwide, hstar, hends, Pattern.accepts]
  | false =>
    have hmodule : text ≠ module ++ ".*" := fun heq => by
      rw [isWide_iff.mpr ⟨module, heq⟩] at hwide
      cases hwide
    rw [if_neg Bool.false_ne_true]
    by_cases hdot : '.' ∈ text.toList
    · simp [Selects, hwide, hstar, hmodule, hdot, Pattern.accepts, eq_importText_iff hwide]
    · have hnone := splitLastDot?_eq_none_iff.mpr hdot
      have hplain : ¬ Strays module name text := by
        rintro ⟨-, -, rfl⟩
        simp [importText] at hdot
      simp [Selects, hstar, hmodule, hdot, hnone, hplain, hempty, Pattern.accepts]

end Pattern

namespace Matcher

variable (texts : List String) (module name : String)

theorem accepts_ofTexts_iff :
    (oneOf (Pattern.ofTexts texts)).accepts module name = true ↔ ∃ text ∈ texts,
      Pattern.Selects module name (trimText text) ∨ Pattern.Strays module name (trimText text) := by
  rw [accepts, any_eq_true]
  constructor
  · rintro ⟨pattern, hpattern, haccepts⟩
    obtain ⟨text, htext, hspelled⟩ := mem_filterMap.mp hpattern
    exact ⟨text, htext, Pattern.accepts_ofText?_iff.mp ⟨pattern, hspelled, haccepts⟩⟩
  · rintro ⟨text, htext, hasks⟩
    obtain ⟨pattern, hspelled, haccepts⟩ := Pattern.accepts_ofText?_iff.mpr hasks
    exact ⟨pattern, mem_filterMap.mpr ⟨text, htext, hspelled⟩, haccepts⟩

/-- A choice by patterns accepts an import if and only if some text asks for it or strays to it, which
none does that asks for it. Blank texts and the order and repetition of texts change nothing. -/
theorem oneOf_accepts_iff :
    ((oneOf (Pattern.ofTexts texts)).accepts module name = true ↔ ∃ text ∈ texts,
      Pattern.Selects module name (trimText text) ∨ Pattern.Strays module name (trimText text)) ∧
    (∀ text, Pattern.Strays module name text → ¬ Pattern.Selects module name text) ∧
    (∀ blank, trimText blank = "" →
      (oneOf (Pattern.ofTexts (blank :: texts))).accepts module name =
        (oneOf (Pattern.ofTexts texts)).accepts module name) ∧
    ∀ others, (∀ text, text ∈ others ↔ text ∈ texts) →
      (oneOf (Pattern.ofTexts others)).accepts module name =
        (oneOf (Pattern.ofTexts texts)).accepts module name := by
  refine ⟨accepts_ofTexts_iff texts module name, fun _ => Pattern.Strays.not_selects,
    fun blank hblank => ?_, fun others hsame => ?_⟩
  · have hnone : Pattern.ofText? blank = none := by
      simp [Pattern.ofText?, hblank]
    rw [Pattern.ofTexts, filterMap_cons_none hnone, Pattern.ofTexts]
  · rw [Bool.eq_iff_iff, accepts_ofTexts_iff, accepts_ofTexts_iff]
    simp only [hsame]

/-- A text with two dots strays to an import whose name has one of them. -/
theorem dotted_name_strays :
    (oneOf (Pattern.ofTexts ["a.b.c"])).accepts "a" "b.c" = true ∧
      ¬ ∃ text ∈ ["a.b.c"], Pattern.Selects "a" "b.c" (trimText text) := by
  decide +kernel

end Matcher

end HostCatch
