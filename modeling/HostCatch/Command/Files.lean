import HostCatch.Fault.Basic

namespace HostCatch

/-- How the command gets at files. -/
structure Files (m : Type → Type) where
  read : String → m (Except Fault Bytes)
  write : String → Bytes → m (Except Fault Unit)

/-- The files of one directory, by name. There are no other directories to lead to. -/
abbrev Directory := List (String × Bytes)

namespace Directory

/-- Where a path leads. -/
inductive Place where
  /-- A name in the directory, whether there is such a file or not. -/
  | entry (name : String)
  /-- The directory itself or one around it. -/
  | folder
  /-- A name that is to be a directory, and is nothing yet. -/
  | unmade
  | nowhere (obstacle : Obstacle)
  deriving DecidableEq

/-- The parts of a path between its slashes. -/
def parts : List Char → List (List Char)
  | [] => [[]]
  | '/' :: cs => [] :: parts cs
  | c :: cs =>
    match parts cs with
    | [] => [[c]]
    | first :: rest => (c :: first) :: rest

/-- The bytes that a path may have, and those that one name may have. -/
def longestPath : Nat := 4095
def longestName : Nat := 255

/-- Follows the parts of a path, of which the empty ones and single points lead nowhere else. -/
def follow (d : Directory) : List (List Char) → Place
  | [] => .folder
  | name :: rest =>
    if name = [] || name = ['.'] then follow d rest
    else if name = ['.', '.'] then
      if rest.all fun part => part = [] || part = ['.'] || part = ['.', '.'] then .folder
      else .nowhere .missing
    else
      let name := String.ofList name
      if longestName < name.utf8ByteSize then .nowhere .tooLong
      else if rest = [] then .entry name
      else if (List.lookup name d).isSome then .nowhere .notDirectory
      else if rest.all (· = []) then .unmade
      else .nowhere .missing

def place (d : Directory) (path : String) : Place :=
  if path = "" then .nowhere .missing
  else if path.toList.contains (Char.ofNat 0) then .nowhere .invalid
  else if longestPath < path.utf8ByteSize then .nowhere .tooLong
  else match parts path.toList with
    | [] :: rest => if rest.all (· = []) then .folder else .nowhere .missing
    | parts => d.follow parts

def readAt (d : Directory) (path : String) : Except Fault Bytes :=
  match d.place path with
  | .entry name =>
    match List.lookup name d with
    | some data => .ok data
    | none => .error (.file .opening path .missing)
  | .folder => .error (.file .reading path .directory)
  | .unmade => .error (.file .opening path .missing)
  | .nowhere obstacle => .error (.file .opening path obstacle)

def writeAt (d : Directory) (path : String) (data : Bytes) : Except Fault Directory :=
  match d.place path with
  | .entry name => .ok ((name, data) :: d.filter (·.1 ≠ name))
  | .folder => .error (.file .opening path .directory)
  | .unmade => .error (.file .opening path .directory)
  | .nowhere obstacle => .error (.file .opening path obstacle)

/-- File access to a directory that is held as a value. -/
def files : Files (StateM Directory) where
  read path := do pure ((← get).readAt path)
  write path data := do
    match (← get).writeAt path data with
    | .ok d => set d; pure (.ok ())
    | .error fault => pure (.error fault)

end Directory

end HostCatch
