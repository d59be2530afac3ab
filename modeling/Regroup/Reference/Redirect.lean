/-
  Regroup.Reference.Redirect — changing where the references of a tree point.

  `redirect f` asks `f` about every reference and writes the answer in its place; an answer
  equal to the question changes nothing. In a substitution the variables' values come first,
  then the placeholders; an import cannot stand in a placeholder, so it is bound to a new
  variable. A substitution in which nothing changed keeps its form.

  `rename` and `substitute` are the two special cases a relocation needs: another local name,
  and any tree in place of one whole construct.
-/

import Regroup.Fresh
import Regroup.Reference.Scan

namespace Regroup

/-- A redirected `result`, the references asked about in order, and how many were changed. -/
structure Redirected (α : Type) where
  result : α
  asked : List Reference
  changed : Nat
  deriving Repr

namespace Redirected

def unchanged {α : Type} (a : α) : Redirected α := ⟨a, [], 0⟩

def map {α β : Type} (f : α → β) (r : Redirected α) : Redirected β := ⟨f r.result, r.asked, r.changed⟩

/-- First `a`, then `b`. -/
def pair {α β γ : Type} (f : α → β → γ) (a : Redirected α) (b : Redirected β) : Redirected γ :=
  ⟨f a.result b.result, a.asked ++ b.asked, a.changed + b.changed⟩

end Redirected

namespace Reference

/-- The answer of `f`, when it differs from the question. -/
def change? (f : Reference → Option Reference) (r : Reference) : Option Reference :=
  (f r).filter (· ≠ r)

/-- The variable an import is bound to: the placeholder's letters and digits, numbered if taken. -/
def variableName (content : String) (vars : Fields Tree) : String :=
  let base := Text.alphanumeric content
  Fresh.name (if base.isEmpty then "Import" else base) "" (Fields.keys vars)

end Reference

namespace Placeholder

open Segment in
/-- The segments with their references redirected, and the variables they then need. -/
def redirect (f : Reference → Option Reference) (declared : List String) (vars : Fields Tree) :
    List Segment → Redirected (List Segment × Fields Tree)
  | [] => .unchanged ([], vars)
  | .text s :: rest => (redirect f declared vars rest).map fun (segments, vars) => (.text s :: segments, vars)
  | .placeholder content :: rest =>
    if content ∈ declared then
      (redirect f declared vars rest).map fun (segments, vars) => (.placeholder content :: segments, vars)
    else
      let r := Reference.ofPath content
      let into (content : String) (vars : Fields Tree) (n : Nat) :=
        Redirected.pair (fun _ (segments, vars) => (.placeholder content :: segments, vars))
          ⟨(), [r], n⟩ (redirect f declared vars rest)
      match r.change? f with
      | none => into content vars 0
      | some (.node name) => into name vars 1
      | some (.attrOf name attr) => into (name ++ "." ++ attr) vars 1
      | some (.imported name) =>
        let fresh := Reference.variableName content vars
        into fresh (Fields.put fresh (Reference.imported name).construct vars) 1

/-- The argument of a substitution: a template, with its variables if it has any. -/
def argument (template : String) (vars : Fields Tree) : Tree :=
  if vars.isEmpty then .text template else .list [.text template, .record vars]

/-- The argument `arg` of a substitution redirected, given its template and redirected variables. -/
def redirectArgument (f : Reference → Option Reference) (arg : Tree) (template : String)
    (vars : Redirected (Fields Tree)) : Redirected Tree :=
  let body := redirect f (Fields.keys vars.result) vars.result (Segment.split template)
  let all := Redirected.pair (fun _ (segments, vars) => argument (Segment.join segments) vars) vars body
  if all.changed = 0 then { all with result := arg } else all

end Placeholder

namespace Tree

mutual

def redirectAs (f : Reference → Option Reference) (role : Role) : Tree → Redirected Tree
  | .text template =>
    if role = .template then Placeholder.redirectArgument f (.text template) template (.unchanged [])
    else .unchanged (.text template)
  | .record [(key, arg)] =>
    match Reference.ofCall? key arg with
    | some r =>
      match r.change? f with
      | some r' => ⟨r'.construct, [r], 1⟩
      | none => ⟨.call key arg, [r], 0⟩
    | none => (redirectAs f (.ofKey key) arg).map (.call key)
  | .record fields => (redirectFields f fields).map .record
  | .list [.text template, .record vars] =>
    if role = .template then
      Placeholder.redirectArgument f (.list [.text template, .record vars]) template (redirectFields f vars)
    else (redirectAs f .value (.record vars)).map fun vars => .list [.text template, vars]
  | .list items => (redirectItems f items).map .list
  | tree => .unchanged tree

def redirectItems (f : Reference → Option Reference) : List Tree → Redirected (List Tree)
  | [] => .unchanged []
  | item :: rest => .pair List.cons (redirectAs f .value item) (redirectItems f rest)

def redirectFields (f : Reference → Option Reference) : List (String × Tree) → Redirected (List (String × Tree))
  | [] => .unchanged []
  | (key, value) :: rest =>
    .pair (fun value rest => (key, value) :: rest) (redirectAs f .value value) (redirectFields f rest)

end

/-- Every reference of the tree replaced by the answer of `f`, where it gives another one. -/
def redirect (f : Reference → Option Reference) (tree : Tree) : Redirected Tree := tree.redirectAs f .value

end Tree

/-- `old` becomes `new` as the name of a node. -/
def Reference.renamed (old new : String) : Reference → Option Reference
  | .node name => if name = old then some (.node new) else none
  | .attrOf name attr => if name = old then some (.attrOf new attr) else none
  | .imported _ => none

namespace Tree

/-- Every reference to `old` made one to `new`. -/
def rename (old new : String) (tree : Tree) : Redirected Tree := tree.redirect (Reference.renamed old new)

mutual

/-- Every whole construct equal to `target` replaced, and how many there were. -/
def substitute (tree : Tree) (target : Reference) (replacement : Tree) : Tree × Nat :=
  match tree with
  | .record fields =>
    if (Tree.record fields).reference? = some target then (replacement, 1)
    else
      let (fields, n) := substituteFields fields target replacement
      (.record fields, n)
  | .list items =>
    let (items, n) := substituteItems items target replacement
    (.list items, n)
  | tree => (tree, 0)

def substituteItems (items : List Tree) (target : Reference) (replacement : Tree) : List Tree × Nat :=
  match items with
  | [] => ([], 0)
  | item :: rest =>
    let (item, n) := substitute item target replacement
    let (rest, m) := substituteItems rest target replacement
    (item :: rest, n + m)

def substituteFields (fields : List (String × Tree)) (target : Reference) (replacement : Tree) :
    List (String × Tree) × Nat :=
  match fields with
  | [] => ([], 0)
  | (key, value) :: rest =>
    let (value, n) := substitute value target replacement
    let (rest, m) := substituteFields rest target replacement
    ((key, value) :: rest, n + m)

end

end Tree

end Regroup
