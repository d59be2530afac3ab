/-
  Regroup.Template.File — templates in files, in the format that the extension names.

  The extension decides first: a path without a known one fails before any file is touched.
-/

import Regroup.Files
import Regroup.Template.Text

namespace Regroup.Template

variable {m : Type → Type} [Monad m] [Files m]

def load (path : String) : m (Except TemplateError Template) := do
  match Format.ofPath path with
  | .error e => return .error e
  | .ok format =>
    match ← Files.read path with
    | .error e => return .error (.file e.message)
    | .ok text => return parse format text

def save (path : String) (t : Template) : m (Except TemplateError Unit) := do
  match Format.ofPath path with
  | .error e => return .error e
  | .ok format => return (← Files.write path (render format t)).mapError (.file ·.message)

end Regroup.Template
