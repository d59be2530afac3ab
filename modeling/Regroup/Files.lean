/-
  Regroup.Files — how a command reaches the files it works on.

  Whatever holds files answers four questions about paths. `Folder` is the one kept in memory:
  a tree of files under one root, where a folder exists once it was made or a file lies in
  it. Paths are walked name by name; of the folders around the root only that they exist is
  known. Names have at most 255 bytes, paths at most 4095, and neither holds a NUL.
-/

import Regroup.Fields

namespace Regroup

inductive FileError where
  | notFound
  | occupied
  | notFolder
  | isFolder
  | nameTooLong
  | nulInPath
  | other (reason : String)
  deriving DecidableEq, Repr

def FileError.message : FileError → String
  | .notFound => "No such file or directory (os error 2)"
  | .occupied => "File exists (os error 17)"
  | .notFolder => "Not a directory (os error 20)"
  | .isFolder => "Is a directory (os error 21)"
  | .nameTooLong => "File name too long (os error 36)"
  | .nulInPath => "file name contained an unexpected NUL byte"
  | .other reason => reason

class Files (m : Type → Type) where
  read : String → m (Except FileError String)
  /-- Whether a file or folder is there. -/
  present : String → m Bool
  /-- Makes the folder and those around it, as far as they are missing. -/
  makeFolder : String → m (Except FileError Unit)
  /-- Writes a file in a folder that exists. -/
  write : String → String → m (Except FileError Unit)

/-- Files and folders by the names on the way to them from the root; the way to those around the
    root begins with double dots. -/
structure Folder where
  files : List (List String × String) := []
  made : List (List String) := []
  deriving Repr

namespace Folder

def file? (f : Folder) (place : List String) : Option String := f.files.lookup place

/-- Whether it is the root or a folder around it. -/
def isRoot (place : List String) : Bool := place.all (· == "..")

def isFolder (f : Folder) (place : List String) : Bool :=
  isRoot place || f.made.contains place || f.files.any fun (p, _) => place.length < p.length && place.isPrefixOf p

def steps (path : String) : List String := (path.toList.splitOn '/').map String.ofList

/-- The bytes that a name may have. -/
def maxName : Nat := 255

/-- The bytes that a path may have. -/
def maxPath : Nat := 4095

/-- The names on a path that can be followed; one from the outer root names no place here. -/
def route (path : String) : Except FileError (List String) :=
  if path.toList.contains '\x00' then .error .nulInPath
  else if path.utf8ByteSize > maxPath then .error .nameTooLong
  else if path.toList.head? = some '/' then .error .notFound
  else .ok (steps path)

/-- The folder around a place. -/
def parent (place : List String) : List String := if isRoot place then place ++ [".."] else place.dropLast

/-- Follows names from `place`. Only in a folder is there a next one. -/
def walk (f : Folder) (place : List String) : List String → Except FileError (List String)
  | [] => .ok place
  | name :: rest =>
    if !f.isFolder place then .error (if (f.file? place).isSome then .notFolder else .notFound)
    else if name = "" ∨ name = "." then f.walk place rest
    else if name = ".." then f.walk (parent place) rest
    else if name.utf8ByteSize > maxName then .error .nameTooLong
    else f.walk (place ++ [name]) rest

/-- The place a path names. -/
def locate (f : Folder) (path : String) : Except FileError (List String) := do
  let names ← route path
  if path.isEmpty then .error .notFound else f.walk [] names

def readAt (f : Folder) (path : String) : Except FileError String := do
  let place ← f.locate path
  match f.file? place with
  | some text => .ok text
  | none => .error (if f.isFolder place then .isFolder else .notFound)

def presentAt (f : Folder) (path : String) : Bool :=
  match f.locate path with
  | .ok place => (f.file? place).isSome || f.isFolder place
  | .error _ => false

/-- The folders on the way from `place` made where they are missing. -/
def makeAlong (f : Folder) (place : List String) : List String → Except FileError Folder
  | [] => .ok f
  | name :: rest =>
    if name = "" ∨ name = "." then f.makeAlong place rest
    else if name = ".." then f.makeAlong (parent place) rest
    else if name.utf8ByteSize > maxName then .error .nameTooLong
    else
      let place := place ++ [name]
      if (f.file? place).isSome then .error (if rest.isEmpty then .occupied else .notFolder)
      else if f.isFolder place then f.makeAlong place rest
      else { f with made := f.made ++ [place] }.makeAlong place rest

def makeAt (f : Folder) (path : String) : Except FileError Folder := do f.makeAlong [] (← route path)

/-- The file under its place: instead of an earlier one, else at the end. -/
def putFile (place : List String) (text : String) : List (List String × String) → List (List String × String)
  | [] => [(place, text)]
  | (p, t) :: rest => if p = place then (p, text) :: rest else (p, t) :: putFile place text rest

def writeAt (f : Folder) (path text : String) : Except FileError Folder := do
  let place ← f.locate path
  if f.isFolder place then .error .isFolder else .ok { f with files := putFile place text f.files }

/-- The files of `pairs` by name, each in the folders that its name implies. -/
def ofFiles (pairs : Fields String) : Folder :=
  { files := pairs.foldl (fun files (path, text) =>
      putFile ((steps path).filter fun name => name ≠ "" ∧ name ≠ ".") text files) [] }

/-- The files under the root that are not in `before` with the same text, by name. -/
def changesSince (f before : Folder) : Fields String :=
  (f.files.filter fun (place, text) => place.head? ≠ some ".." ∧ before.file? place ≠ some text).map
    fun (place, text) => ("/".intercalate place, text)

/-- Keeps what a change leaves, or answers why it failed. -/
def commit (change : Folder → Except FileError Folder) : StateM Folder (Except FileError Unit) := do
  match change (← get) with
  | .ok f => do
    set f
    return .ok ()
  | .error e => return .error e

instance : Files (StateM Folder) where
  read path := return (← get).readAt path
  present path := return (← get).presentAt path
  makeFolder path := commit (·.makeAt path)
  write path text := commit (·.writeAt path text)

end Folder

end Regroup
