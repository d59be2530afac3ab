/-
  Regroup.CommandLine.Request — what a command line asks for.

  A command has a name, switches of its own and one or more words, the inputs. Two switches
  are common to all commands and may stand in front of the command as well; behind it they
  count for more. Every misuse is one and the same answer, nothing (`Request.ofArgs?`).
-/

import Regroup.CommandLine.Switch

namespace Regroup.CommandLine

inductive Command where
  | order
  | edges
  | move
  deriving DecidableEq, Repr

namespace Command

def all : List Command := [.order, .edges, .move]

def name : Command → String
  | .order => "order"
  | .edges => "edges"
  | .move => "move"

def ofName? (name : String) : Option Command := all.find? (·.name == name)

def about : Command → String
  | .order => "Print resources in dependency order"
  | .edges => "List edges"
  | .move => "Move or rename a resource and regenerate every template"

/-- The switches of the command itself. -/
def switches : Command → List Switch
  | .order => []
  | .edges => [⟨"cross-group", none, .nothing, "Only show edges crossing a group boundary"⟩]
  | .move => [
    ⟨"from", none, .word, "Current address, group/name"⟩,
    ⟨"to", none, .word, "New address, group/name"⟩,
    ⟨"out", none, .path, "Directory to write regenerated templates into (stdout if absent)"⟩,
    ⟨"format", none, .word, "Output format [default: yaml]"⟩]

/-- The switches that must be given. -/
def required : Command → List String
  | .order | .edges => []
  | .move => ["from", "to"]

def inputsAbout : Command → String
  | .order => "Templates as GROUP=FILE, or FILE to use the file stem as group"
  | .edges | .move => ""

end Command

/-- The switches that every command knows. -/
def common : List Switch := [
  ⟨"config", none, .path, "Path to a YAML config file"⟩,
  ⟨"verbose", some 'v', .nothingRepeated, "Increase log verbosity (-v info, -vv debug, -vvv trace)"⟩]

def helpSwitch : Switch := ⟨"help", some 'h', .help, "Print help"⟩

def versionSwitch : Switch := ⟨"version", some 'V', .version, "Print version"⟩

/-- What is to be done with the graph of the inputs. -/
inductive Task where
  | order
  | edges (crossGroup : Bool)
  | move (origin destination : String) (out : Option String) (format : String)
  deriving DecidableEq, Repr

structure Job where
  config : Option String
  inputs : List String
  task : Task
  deriving DecidableEq, Repr

/-- What the help is about. -/
inductive Topic where
  | program
  | command (c : Command)
  | help
  deriving DecidableEq, Repr

inductive Request where
  | run (job : Job)
  | help (topic : Topic)
  | version
  deriving DecidableEq, Repr

namespace Request

/-- The task of a command, from its switches. -/
def task? (given : Fields String) : Command → Option Task
  | .order => some .order
  | .edges => some (.edges (given.has "cross-group"))
  | .move => do
    return .move (← given.find? "from") (← given.find? "to") (given.find? "out") ((given.find? "format").getD "yaml")

/-- A command with its arguments, and the switches in front of it. -/
def ofCommand? (before : Fields String) (c : Command) (args : List String) : Option Request :=
  match ({} : Reading).read (c.switches ++ common ++ [helpSwitch]) false args with
  | some (.finished given words) => do
    if words.isEmpty then none
    return .run ⟨(given.find? "config").or (before.find? "config"), words, ← task? given c⟩
  | some .help => some (.help (.command c))
  | _ => none

/-- The help that the command `help` gives, on at most one topic. -/
def ofHelp? : List String → Option Request
  | [] => some (.help .program)
  | [name] => if name = "help" then some (.help .help) else (Command.ofName? name).map fun c => .help (.command c)
  | _ => none

def ofArgs? (args : List String) : Option Request :=
  match ({} : Reading).read (common ++ [helpSwitch, versionSwitch]) true args with
  | some (.command given name rest) =>
    if name = "help" then ofHelp? rest else (Command.ofName? name).bind fun c => ofCommand? given c rest
  | some .help => some (.help .program)
  | some .version => some .version
  | _ => none

end Request

end Regroup.CommandLine
