/-
  Regroup.Json.Writer — property trees as JSON text, on one line or indented by two blanks.

  Quotes, backslashes and control characters are escaped, all else stands for itself.
-/

import Regroup.Binary64.Shortest
import Regroup.Tree

namespace Regroup.Tree

def jsonFloat : Layout := ⟨-5, 15, true⟩

def hexDigit (n : Nat) : Char := (Nat.toDigits 16 n).getLastD '0'

def escapeChar (c : Char) : List Char :=
  match c with
  | '"' => ['\\', '"']
  | '\\' => ['\\', '\\']
  | '\x08' => ['\\', 'b']
  | '\x0c' => ['\\', 'f']
  | '\n' => ['\\', 'n']
  | '\r' => ['\\', 'r']
  | '\t' => ['\\', 't']
  | c => if c.toNat < 0x20 then ['\\', 'u', '0', '0', hexDigit (c.toNat / 16), hexDigit (c.toNat % 16)] else [c]

def quoted (s : String) : String := String.ofList ('"' :: (s.toList.flatMap escapeChar ++ ['"']))

mutual

def compact : Tree → String
  | .null => "null"
  | .bool b => if b then "true" else "false"
  | .int i => toString i.toInt
  | .float x => jsonFloat.render x
  | .text s => quoted s
  | .list items => "[" ++ ",".intercalate (compactItems items) ++ "]"
  | .record fields => "\x7b" ++ ",".intercalate (compactFields fields) ++ "\x7d"

def compactItems : List Tree → List String
  | [] => []
  | item :: rest => compact item :: compactItems rest

def compactFields : List (String × Tree) → List String
  | [] => []
  | (name, value) :: rest => (quoted name ++ ":" ++ compact value) :: compactFields rest

end

def blanks (n : Nat) : String := String.ofList (List.replicate n ' ')

/-- Entries each on a line of its own, two blanks deeper than the brackets. -/
def block (indent : Nat) (opening closing : String) : List String → String
  | [] => opening ++ closing
  | entries =>
    let line := "\n" ++ blanks (indent + 2)
    opening ++ line ++ ("," ++ line).intercalate entries ++ "\n" ++ blanks indent ++ closing

mutual

def prettyAt (indent : Nat) : Tree → String
  | .list items => block indent "[" "]" (prettyItems (indent + 2) items)
  | .record fields => block indent "\x7b" "\x7d" (prettyFields (indent + 2) fields)
  | tree => compact tree

def prettyItems (indent : Nat) : List Tree → List String
  | [] => []
  | item :: rest => prettyAt indent item :: prettyItems indent rest

def prettyFields (indent : Nat) : List (String × Tree) → List String
  | [] => []
  | (name, value) :: rest => (quoted name ++ ": " ++ prettyAt indent value) :: prettyFields indent rest

end

def pretty (tree : Tree) : String := tree.prettyAt 0

end Regroup.Tree
