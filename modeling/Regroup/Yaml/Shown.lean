/-
  Regroup.Yaml.Shown — YAML values spelled out in messages.

  Each value names its kind, so that the text `1` and the number 1 differ. Texts are quoted,
  with escapes for quotes, backslashes and all that is not visible. The keys of a mapping are
  given without their kind where they are texts, numbers or booleans.
-/

import Regroup.Text.Visible
import Regroup.Yaml

namespace Regroup.Yaml

def shownChar (c : Char) : List Char :=
  match c with
  | '"' => ['\\', '"']
  | '\\' => ['\\', '\\']
  | '\n' => ['\\', 'n']
  | '\r' => ['\\', 'r']
  | '\t' => ['\\', 't']
  | '\x00' => ['\\', '0']
  | c => if Text.isVisible c then [c] else ['\\', 'u', '{'] ++ Nat.toDigits 16 c.toNat ++ ['}']

def shownText (s : String) : String := String.ofList ('"' :: (s.toList.flatMap shownChar ++ ['"']))

mutual

def shown : Yaml → String
  | .null => "Null"
  | .text s => "String(" ++ shownText s ++ ")"
  | .bool b => "Bool(" ++ (if b then "true" else "false") ++ ")"
  | .sequence items => "Sequence [" ++ ", ".intercalate (shownItems items) ++ "]"
  | .mapping entries => "Mapping \x7b" ++ ", ".intercalate (shownEntries entries) ++ "\x7d"
  | .tagged tag v => "TaggedValue \x7b tag: !" ++ tag ++ ", value: " ++ shown v ++ " \x7d"
  | number => "Number(" ++ number.key?.getD "" ++ ")"

def shownItems : List Yaml → List String
  | [] => []
  | item :: rest => shown item :: shownItems rest

def shownEntries : List (Yaml × Yaml) → List String
  | [] => []
  | (key, value) :: rest =>
    let name := match key with
      | .text s => shownText s
      | key => key.key?.getD (shown key)
    (name ++ ": " ++ shown value) :: shownEntries rest

end

end Regroup.Yaml
