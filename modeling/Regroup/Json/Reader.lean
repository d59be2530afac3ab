/-
  Regroup.Json.Reader — JSON texts.

  Lists and records may be nested 127 deep; one that lies deeper is unreadable.
-/

import Regroup.Json.Token

namespace Regroup.Json

def maxDepth : Nat := 127

/-- A list or record at nesting depth `depth`. -/
def atDepth (depth : Nat) (v : Json) : Json := if depth ≤ maxDepth then v else .unreadable

/-- A record, unreadable if one of its names is. -/
def ofMembers (members : List (Option String × Json)) : Json :=
  (members.mapM fun (m : Option String × Json) => m.1.map (·, m.2)).elim .unreadable .record

mutual

/-- One value that begins the tokens; containers in it lie at `depth` or deeper. -/
def takeValue : Nat → Nat → List Token → Option (Json × List Token)
  | 0, _, _ => none
  | fuel + 1, depth, ts =>
    match ts with
    | .scalar v :: ts => some (v, ts)
    | .string s :: ts => some (s.elim .unreadable .text, ts)
    | .openList :: .closeList :: ts => some (atDepth depth (.list []), ts)
    | .openList :: ts => (takeItems fuel (depth + 1) ts).map fun (items, ts) => (atDepth depth (.list items), ts)
    | .openRecord :: .closeRecord :: ts => some (atDepth depth (.record []), ts)
    | .openRecord :: ts =>
      (takeMembers fuel (depth + 1) ts).map fun (members, ts) => (atDepth depth (ofMembers members), ts)
    | _ => none

/-- The items of a list up to its end. -/
def takeItems : Nat → Nat → List Token → Option (List Json × List Token)
  | 0, _, _ => none
  | fuel + 1, depth, ts => do
    let (v, ts) ← takeValue fuel depth ts
    match ts with
    | .closeList :: ts => some ([v], ts)
    | .comma :: ts => (takeItems fuel depth ts).map fun (vs, ts) => (v :: vs, ts)
    | _ => none

/-- The members of a record up to its end. -/
def takeMembers : Nat → Nat → List Token → Option (List (Option String × Json) × List Token)
  | 0, _, _ => none
  | fuel + 1, depth, ts =>
    match ts with
    | .string name :: .colon :: ts => do
      let (v, ts) ← takeValue fuel depth ts
      match ts with
      | .closeRecord :: ts => some ([(name, v)], ts)
      | .comma :: ts => (takeMembers fuel depth ts).map fun (ms, ts) => ((name, v) :: ms, ts)
      | _ => none
    | _ => none

end

/-- The one value that a text holds. -/
def read? (text : String) : Option Json := do
  let ts ← tokens? text
  match takeValue (ts.length + 1) 1 ts with
  | some (v, []) => some v
  | _ => none

end Regroup.Json
