/-
  Regroup.Path — the parts of a file's path.

  Slashes part a path into names; empty names and single dots count for nothing, except that
  a dot in front or on its own is no file. The extension is what follows the last dot of the
  file's name, unless that dot begins the name.
-/

namespace Regroup.Path

/-- The names between slashes, without those that count for nothing. -/
def names (path : String) : List String :=
  ((path.toList.splitOn '/').map String.ofList).filter fun name => name ≠ "" ∧ name ≠ "."

/-- The name of the file itself; a path that ends in its parent has none. -/
def fileName? (path : String) : Option String :=
  (names path).getLast?.filter (· ≠ "..")

/-- A file's name without its extension, and the extension if it has one. -/
def cutExtension (name : String) : String × Option String :=
  let cs := name.toList.reverse
  match cs.dropWhile (· ≠ '.') with
  | _ :: b :: stem => (String.ofList (b :: stem).reverse, some (String.ofList (cs.takeWhile (· ≠ '.')).reverse))
  | _ => (name, none)

def stem? (path : String) : Option String := (fileName? path).map (cutExtension · |>.1)

def extension? (path : String) : Option String := (fileName? path).bind (cutExtension · |>.2)

/-- The path of `name` within `folder`; a path from the root stands for itself. -/
def join (folder name : String) : String :=
  if name.toList.head? = some '/' then name
  else if folder.isEmpty || folder.toList.getLast? = some '/' then folder ++ name
  else folder ++ "/" ++ name

end Regroup.Path
