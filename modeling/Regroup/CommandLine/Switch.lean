/-
  Regroup.CommandLine.Switch — telling switches from words on a command line.

  A switch is written `--name`, one with a value `--name value` or `--name=value`; one letter
  switches may be joined behind a single dash. Behind `--` everything is a word, and so is a
  dash alone. A value does not begin with a dash unless an equals sign is in front of it.
  Arguments are taken one by one from the left, and the first fault ends the reading.
-/

import Regroup.Fields
import Regroup.Text

namespace Regroup.CommandLine

inductive Takes where
  | nothing
  /-- Nothing, and the switch may be repeated. -/
  | nothingRepeated
  | word
  /-- A word that is not empty. -/
  | path
  /-- Nothing; the help is asked for. -/
  | help
  /-- Nothing; the version is asked for. -/
  | version
  deriving DecidableEq, Repr

structure Switch where
  name : String
  letter : Option Char := none
  takes : Takes
  about : String
  deriving DecidableEq, Repr

namespace Switch

def takesValue (s : Switch) : Bool := s.takes == .word || s.takes == .path

end Switch

/-- What has been read: the switches with their values and the words, both in order. -/
structure Reading where
  given : Fields String := []
  words : List String := []
  /-- A switch whose value comes next. -/
  pending : Option Switch := none
  deriving Repr

/-- How the reading of switches and words comes to its end. -/
inductive Ending where
  | finished (given : Fields String) (words : List String)
  /-- The first word, where that is a command, and all behind it. -/
  | command (given : Fields String) (name : String) (rest : List String)
  | help
  | version
  deriving Repr

namespace Reading

/-- The switch with its value. Only some may be given twice. -/
def give (r : Reading) (s : Switch) (value : String) : Option Reading :=
  if s.takes == .path && value.isEmpty then none
  else if r.given.has s.name then (if s.takes == .nothingRepeated then some r else none)
  else some { r with given := r.given ++ [(s.name, value)], pending := none }

/-- A switch without a value: it ends the reading, or the reading goes on. -/
def meet (r : Reading) (s : Switch) : Option (Reading ⊕ Ending) :=
  match s.takes with
  | .help => some (.inr .help)
  | .version => some (.inr .version)
  | .word | .path => some (.inl { r with pending := some s })
  | .nothing | .nothingRepeated => (r.give s "").map .inl

/-- Letters joined behind one dash. None of them takes a value. -/
def meetLetters (switches : List Switch) (r : Reading) : List Char → Option (Reading ⊕ Ending)
  | [] => some (.inl r)
  | c :: rest =>
    match switches.find? (·.letter == some c) with
    | none => none
    | some s =>
      match r.meet s with
      | some (.inl r) => if r.pending.isSome then none else r.meetLetters switches rest
      | ending => ending

/-- A switch by its name, with a value behind an equals sign if there is one. -/
def meetName (switches : List Switch) (r : Reading) (text : String) : Option (Reading ⊕ Ending) :=
  let (name, value) : String × Option String := match Text.cut '=' text with
    | some (name, value) => (name, some value)
    | none => (text, none)
  match switches.find? (·.name == name) with
  | none => none
  | some s =>
    match value with
    | none => r.meet s
    | some value => if s.takesValue then (r.give s value).map .inl else none

/-- Reads the arguments; with `commands` the first word is one. -/
def read (switches : List Switch) (commands : Bool) (r : Reading) : List String → Option Ending
  | [] => if r.pending.isSome then none else some (.finished r.given r.words)
  | arg :: rest =>
    let onward (next : Option (Reading ⊕ Ending)) : Option Ending :=
      match next with
      | none => none
      | some (.inl r) => r.read switches commands rest
      | some (.inr ending) => some ending
    match r.pending, arg.toList with
    | some _, '-' :: _ :: _ => none
    | some s, _ => onward ((r.give s arg).map .inl)
    | none, ['-', '-'] => some (.finished r.given (r.words ++ rest))
    | none, '-' :: '-' :: name => onward (r.meetName switches (String.ofList name))
    | none, '-' :: c :: letters => onward (r.meetLetters switches (c :: letters))
    | none, _ =>
      if commands then some (.command r.given arg rest)
      else onward (some (.inl { r with words := r.words ++ [arg] }))

end Reading

end Regroup.CommandLine
