/-
  Regroup.Yaml.Tag — the tags of YAML nodes.

  A tag is written in characters and octets, and octets need not make a character: those that
  do not are kept as a gap, and a tag with a gap has no name. A NUL ends what is written.
  Tags that begin with an exclamation mark are local, and name functions; the others are
  foreign, and a few of them are standard.
-/

namespace Regroup.Yaml

/-- The characters of a tag, and `none` where octets make no character. -/
structure Tag where
  chars : List (Option Char)
  deriving DecidableEq, Repr

namespace Tag

/-- What is written, up to a NUL. -/
def ofWritten (cs : List (Option Char)) : Tag := ⟨cs.takeWhile (· ≠ some '\x00')⟩

def ofText (s : String) : Tag := ⟨s.toList.map some⟩

def append (a b : Tag) : Tag := ⟨a.chars ++ b.chars⟩

/-- The text of a tag without gaps. -/
def text? (t : Tag) : Option String := (t.chars.mapM id).map String.ofList

def isLocal (t : Tag) : Bool := t.chars.head? == some (some '!')

/-- The name in a local tag, behind one or two exclamation marks. A mark with nothing behind it
    is a name. -/
def name? (t : Tag) : Option String := do
  match (← t.text?).toList with
  | '!' :: '!' :: c :: rest => some (String.ofList (c :: rest))
  | '!' :: c :: rest => some (String.ofList (c :: rest))
  | ['!'] => some "!"
  | _ => none

/-- What standard tags begin with. -/
def standardPart : String := "tag:yaml.org,2002:"

/-- Whether the tag is the standard one of that name. -/
def isStandard (t : Tag) (name : String) : Bool := t == ofText (standardPart ++ name)

end Tag

end Regroup.Yaml
