/-
  Regroup.CommandLine.Help — the help texts, laid out from what the commands declare.

  A text has an opening line, the usage, and lists of commands, arguments and switches. In
  each list the explanations begin at one column, two blanks behind the longest entry. The
  switches of a command and the common ones are merged by their places among their own kind.
-/

import Regroup.CommandLine.Request

namespace Regroup.CommandLine

def programName : String := "stackgraph"

def version : String := "0.1.0"

def programAbout : String := "Dependency graph tooling for infrastructure templates"

namespace Help

/-- An entry of a list and its explanation. -/
abbrev Row := String × String

def padded (width : Nat) (s : String) : String := s ++ String.ofList (List.replicate (width - s.length) ' ')

/-- A headed list; nothing when it has no rows. -/
def headed? (title : String) (rows : List Row) : Option String :=
  let width := (rows.map fun row => row.1.length).foldl max 0
  if rows.isEmpty then none
  else some (title ++ ":\n" ++ "\n".intercalate (rows.map fun (entry, about) => "  " ++ padded width entry ++ "  " ++ about))

/-- The name of a switch's value. -/
def placeholder (s : Switch) : String := "<" ++ s.name.map Char.toUpper ++ ">"

def switchRow (s : Switch) : Row :=
  let letter := match s.letter with
    | some c => "-" ++ c.toString ++ ", "
    | none => "    "
  let value := if s.takesValue then " " ++ placeholder s else if s.takes == .nothingRepeated then "..." else ""
  (letter ++ "--" ++ s.name ++ value, s.about)

/-- What switches of equal place are ordered by: the letter, or else the name. -/
def sortKey (s : Switch) : String := (s.letter.map Char.toString).getD s.name

/-- Two lists merged place by place. -/
def merged : List Switch → List Switch → List Switch
  | [], bs => bs
  | as, [] => as
  | a :: as, b :: bs => (if sortKey b < sortKey a then [b, a] else [a, b]) ++ merged as bs

def inputs : String := "<INPUTS>..."

def usage (topic : Topic) : String :=
  match topic with
  | .program => "[OPTIONS] <COMMAND>"
  | .command c =>
    let needed := (c.switches.filter fun s => c.required.contains s.name).map fun s => "--" ++ s.name ++ " " ++ placeholder s
    " ".intercalate ([c.name, "[OPTIONS]"] ++ needed ++ [inputs])
  | .help => "help [COMMAND]..."

def helpAbout : String := "Print this message or the help of the given subcommand(s)"

def about : Topic → String
  | .program => programAbout
  | .command c => c.about
  | .help => helpAbout

def commands : Topic → List Row
  | .program => Command.all.map (fun c => (c.name, c.about)) ++ [("help", helpAbout)]
  | _ => []

def arguments : Topic → List Row
  | .program => []
  | .command c => [(inputs, c.inputsAbout)]
  | .help => [("[COMMAND]...", "Print help for the subcommand(s)")]

def switches : Topic → List Switch
  | .program => common ++ [helpSwitch, versionSwitch]
  | .command c => merged c.switches common ++ [helpSwitch]
  | .help => []

def render (topic : Topic) : String :=
  let lists := [headed? "Commands" (commands topic), headed? "Arguments" (arguments topic),
    headed? "Options" ((switches topic).map switchRow)]
  "\n\n".intercalate ([about topic, "Usage: " ++ programName ++ " " ++ usage topic] ++ lists.filterMap id) ++ "\n"

end Help

end Regroup.CommandLine
