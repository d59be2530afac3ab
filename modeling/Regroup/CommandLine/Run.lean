/-
  Regroup.CommandLine.Run — doing what a command line asks for.

  Settings and inputs are read first, then the graph of all inputs is built, then the task is
  done. The first failure ends the run with code 1 and its message on the error stream; what
  was printed before stays printed. A misuse of the command line prints nothing on the
  standard stream and ends with code 2.
-/

import Regroup.CommandLine.Help
import Regroup.Settings
import Regroup.Store.Order
import Regroup.Store.Relocation
import Regroup.Template.File
import Regroup.Template.Generation
import Regroup.Template.Ingestion

namespace Regroup.CommandLine

/-- What goes to the standard stream, and the lines that go to the error stream. -/
structure Printed where
  standard : String := ""
  errors : List String := []
  deriving DecidableEq, Repr

structure Outcome extends Printed where
  code : Nat
  deriving DecidableEq, Repr

/-- Work that prints and may fail with a message. -/
abbrev Work (m : Type → Type) (α : Type) := ExceptT String (StateT Printed m) α

variable {m : Type → Type} [Monad m]

namespace Work

def print (line : String) : Work m Unit := modify fun p => { p with standard := p.standard ++ line ++ "\n" }

def report (line : String) : Work m Unit := modify fun p => { p with errors := p.errors ++ [line] }

/-- The result, or the failure with what it was that failed. -/
def orFail {ε α : Type} (message : ε → String) : Except ε α → Work m α
  | .ok a => pure a
  | .error e => throw (message e)

end Work

open Work

variable [Files m]

/-- The settings from the file that is asked for, or from the standard one if it is there. -/
def settings (config : Option String) (standard : Option String) : Work m Naming := do
  let standard ← standard.filterM fun path => (Files.present path : m Bool)
  match config.or standard with
  | none => return {}
  | some path =>
    let failed (reason : String) := "Failed to load config '" ++ path ++ "': " ++ reason
    let text ← orFail (fun e : FileError => failed ("IO error: " ++ e.message)) (← (Files.read path : m _))
    match Naming.ofYaml? text with
    | some naming => return naming
    | none => throw (failed "YAML error: not a record of settings")

/-- The group and the file of an input: `GROUP=FILE`, or a file whose stem is the group. -/
def input (text : String) : Except String (String × String) :=
  match Text.cut '=' text with
  | some found => .ok found
  | none =>
    match Path.stem? text with
    | some stem => .ok (stem, text)
    | none => .error ("cannot derive a group name from '" ++ text ++ "'")

def readInput (text : String) : Work m Document := do
  let (group, path) ← orFail id (input text)
  let template ← orFail (fun e : TemplateError => "Failed to read '" ++ path ++ "': " ++ e.message)
    (← (Template.load path : m _))
  return ⟨group, template⟩

/-- The graph of all inputs. -/
def readStore (naming : Naming) (inputs : List String) : Work m Store := do
  let documents ← inputs.mapM readInput
  orFail (fun e => "Failed to ingest: " ++ (TemplateError.store e).message) (({ naming } : Store).ingest documents)

def address (text : String) : Except String Address :=
  (Address.parse? text).elim (.error ("invalid address '" ++ text ++ "', expected group/name")) .ok

def printOrder (s : Store) : Work m Unit := do
  for node in ← orFail StoreError.message s.sorted do
    print (node.id.render ++ "  " ++ node.kind)

def printEdges (s : Store) (crossGroup : Bool) : Work m Unit := do
  let edges := if crossGroup then s.crossing else s.edges
  if edges.isEmpty then print "No edges."
  for edge in edges do
    print edge.render

def reportRelocation (r : Relocation) : Work m Unit := do
  let counted (n : Nat) (what : String) := toString n ++ " " ++ what
  report ("Moved " ++ r.origin.render ++ " to " ++ r.destination.render ++ " (" ++ counted r.converted.length "converted"
    ++ ", " ++ counted r.restored.length "restored" ++ ", " ++ counted r.dropped.length "dropped" ++ ")")
  for name in r.created do
    report ("  + export " ++ name)
  for name in r.pruned do
    report ("  - export " ++ name)

/-- Every group's template into a file of the folder. -/
def saveGroups (s : Store) (folder : String) (format : Format) : Work m Unit := do
  orFail (fun e : FileError => "cannot create '" ++ folder ++ "': " ++ e.message) (← (Files.makeFolder folder : m _))
  for group in s.groups do
    let path := Path.join folder (group ++ "." ++ format.extension)
    orFail TemplateError.message (← (Template.save path (s.generate group) : m _))
    report ("Wrote " ++ path)

def printGroups (s : Store) (format : Format) : Work m Unit := do
  for group in s.groups do
    print ("# " ++ group)
    print ((s.generate group).render format)

def move (s : Store) (origin destination : String) (out : Option String) (format : String) : Work m Unit := do
  let format ← orFail TemplateError.message (Format.ofName format)
  let origin ← orFail id (address origin)
  let destination ← orFail id (address destination)
  let (r, s) ← orFail StoreError.message (s.relocate origin destination)
  reportRelocation r
  match out with
  | some folder => saveGroups s folder format
  | none => printGroups s format

def work (standardConfig : Option String) (job : Job) : Work m Unit := do
  let naming ← settings job.config standardConfig
  let s ← readStore naming job.inputs
  match job.task with
  | .order => printOrder s
  | .edges crossGroup => printEdges s crossGroup
  | .move origin destination out format => move s origin destination out format

/-- What the program does for these arguments. -/
def run (standardConfig : Option String) (args : List String) : m Outcome := do
  match Request.ofArgs? args with
  | none => return { errors := ["error: see " ++ programName ++ " --help"], code := 2 }
  | some .version => return { standard := programName ++ " " ++ version ++ "\n", code := 0 }
  | some (.help topic) => return { standard := Help.render topic, code := 0 }
  | some (.run job) =>
    match ← ((work standardConfig job).run).run {} with
    | (.ok (), printed) => return { printed with code := 0 }
    | (.error message, printed) => return { printed with errors := printed.errors ++ ["Error: " ++ message], code := 1 }

end Regroup.CommandLine
