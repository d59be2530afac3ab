/-
  Regroup.Address — where a node lives: its group and its name within the group.

  An address is written `group/name`. The group ends at the first slash, so a name may hold
  slashes and a group may not; both must be given (`parse?_render`).
-/

import Regroup.Text

namespace Regroup

structure Address where
  group : String
  name : String
  deriving DecidableEq, Repr

namespace Address

def render (a : Address) : String := a.group ++ "/" ++ a.name

def parse? (s : String) : Option Address :=
  (Text.cut '/' s).bind fun (group, name) => if group = "" ∨ name = "" then none else some ⟨group, name⟩

theorem parse?_render {a : Address} (hg : a.group ≠ "") (hs : '/' ∉ a.group.toList) (hn : a.name ≠ "") :
    parse? a.render = some a := by
  have h : Text.cut '/' a.render = some (a.group, a.name) :=
    Text.cut_eq_some_iff.2 ⟨by simp [render], hs⟩
  simp [parse?, h, hg, hn]

end Address

end Regroup
