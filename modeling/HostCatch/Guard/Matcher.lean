import HostCatch.Text.Blank

namespace HostCatch

/-- What a pattern for imports asks for. -/
inductive Pattern where
  | everything
  | fromModule (module : String)
  /-- An import by module and name, joined with a dot. -/
  | qualified (full : String)
  | named (name : String)
  deriving DecidableEq

/-- How an import is spoken of: its module and its name, joined with a dot. -/
def importText (module name : String) : String :=
  module ++ "." ++ name

namespace Pattern

/-- The pattern that a text spells once blanks around it are dropped; a blank text spells none. -/
def ofText? (s : String) : Option Pattern :=
  let chars := (trimText s).toList
  if chars = [] then none
  else if chars = ['*'] then some everything
  else if ['.', '*'].isSuffixOf chars then
    some (fromModule (String.ofList (chars.take (chars.length - 2))))
  else if '.' ∈ chars then some (qualified (String.ofList chars))
  else some (named (String.ofList chars))

/-- The patterns of a list of texts. -/
def ofTexts (texts : List String) : List Pattern :=
  texts.filterMap ofText?

/-- The patterns of a text in which commas separate them. -/
def ofList (list : String) : List Pattern :=
  ofTexts (list.splitOn ",")

def accepts (module name : String) : Pattern → Bool
  | everything => true
  | fromModule m => m = module
  | qualified full => full = importText module name
  | named n => n = name

end Pattern

/-- A choice of imports. -/
inductive Matcher where
  | nothing
  | oneOf (patterns : List Pattern)
  | names (pairs : List (String × String))
  | anyOf (matchers : List Matcher)
  deriving Inhabited

namespace Matcher

mutual

def accepts (module name : String) : Matcher → Bool
  | nothing => false
  | oneOf patterns => patterns.any (Pattern.accepts module name)
  | names pairs => (module, name) ∈ pairs
  | anyOf matchers => someAccepts module name matchers

def someAccepts (module name : String) : List Matcher → Bool
  | [] => false
  | m :: ms => accepts module name m || someAccepts module name ms

end

end Matcher

end HostCatch
