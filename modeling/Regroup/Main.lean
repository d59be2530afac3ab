/-
  Regroup.Main — the program: its arguments, the files around it and the two streams.
-/

import Regroup.CommandLine.Run

namespace Regroup.CommandLine

/-- The causes that the file system gives, as far as they are known by name. -/
def fileError : IO.Error → FileError
  | .noFileOrDirectory .. => .notFound
  | .alreadyExists .. => .occupied
  | .inappropriateType .. => .notFolder
  | e => .other (toString e)

def attempt {α : Type} (act : IO α) : IO (Except FileError α) := do
  match ← act.toBaseIO with
  | .ok a => return .ok a
  | .error e => return .error (fileError e)

instance : Files IO where
  read path := attempt (IO.FS.readFile path)
  present path := return (← attempt (IO.FS.realPath path)) matches .ok _
  makeFolder path := attempt (IO.FS.createDirAll path)
  write path text := attempt (IO.FS.writeFile path text)

/-- The standard place of the settings, in the user's folder for them. -/
def standardConfig : IO (Option String) := do
  let given := (← IO.getEnv "XDG_CONFIG_HOME").filter fun path => path.toList.head? = some '/'
  let folder := given.or ((← IO.getEnv "HOME").map fun home => Path.join home ".config")
  return folder.map fun folder => Path.join (Path.join folder programName) "config.yaml"

end Regroup.CommandLine

def main (args : List String) : IO UInt32 := do
  let outcome ← Regroup.CommandLine.run (← Regroup.CommandLine.standardConfig) args
  IO.print outcome.standard
  for line in outcome.errors do
    IO.eprintln line
  return outcome.code.toUInt32
