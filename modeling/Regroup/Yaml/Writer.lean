/-
  Regroup.Yaml.Writer — YAML values as block style text.

  Each level is indented by two columns, but a sequence in a mapping stands at the column of
  its key. A text is written plain when it reads back as the same text, else quoted once;
  one with a newline is a literal block, and one with characters that cannot be shown, or
  with blanks that would be lost, is quoted twice with escapes (`Style`). Lines are not
  wrapped. A key that is long, or has a break, gets a question mark and a colon of its own.
-/

import Regroup.Yaml.Scalar
import Regroup.Yaml.Token

namespace Regroup.Yaml

namespace Writer

/-! ## The style of a text -/

inductive Style where
  | plain
  | single
  | double
  | literal
  deriving DecidableEq, Repr

def isPrintable (c : Char) : Bool :=
  let n := c.toNat
  n == 0x0a || (0x20 ≤ n && n ≤ 0x7e) || (0xa0 ≤ n && n ≤ 0xd7ff)
    || (0xe000 ≤ n && n ≤ 0xfffd && n != 0xfeff) || 0x10000 ≤ n

/-- Whether some two neighbours are a blank and a break, in the order that `first` says. -/
def neighbours (first second : Char → Bool) : List Char → Bool
  | a :: b :: rest => (first a && second b) || neighbours first second (b :: rest)
  | _ => false

/-- Whether a colon before a gap, or a hash behind one, would end the text. -/
def hasInnerMark : List Char → Bool
  | a :: b :: rest =>
    let gap (c : Char) := isBlank c || isBreak c
    (b == '#' && gap a) || (b == ':' && (rest.head?.all gap)) || hasInnerMark (b :: rest)
  | _ => false

def openingMarks : List Char :=
  ['#', ',', '[', ']', '{', '}', '&', '*', '!', '|', '>', '\'', '"', '%', '@', '\x60']

/-- Whether the text would begin as something else. -/
def hasOpeningMark : List Char → Bool
  | c :: rest =>
    let gap := rest.head?.all fun c => isBlank c || isBreak c
    openingMarks.contains c || ((c == '?' || c == ':' || c == '-') && gap)
      || ((c == '-' || c == '.') && (rest.take 2 == [c, c]))
  | [] => false

structure Shape where
  hasBreak : Bool
  special : Bool
  spaceBreak : Bool
  breakSpace : Bool
  edgeSpace : Bool
  edgeBreak : Bool
  trailingSpace : Bool
  marked : Bool

def isSpace (c : Char) : Bool := c == ' '

/-- The breaks of all systems. -/
def endsLine (c : Char) : Bool := isBreak c || c == '\r' || c == '\u0085'

def shape (cs : List Char) : Shape where
  hasBreak := cs.any endsLine
  special := cs.any (!isPrintable ·)
  spaceBreak := neighbours isSpace isBreak cs
  breakSpace := neighbours isBreak isSpace cs
  edgeSpace := cs.head?.any isSpace || cs.getLast?.any isSpace
  edgeBreak := cs.head?.any isBreak || cs.getLast?.any isBreak
  trailingSpace := cs.getLast?.any isSpace
  marked := hasOpeningMark cs || hasInnerMark cs

namespace Shape

def plainAllowed (s : Shape) : Bool :=
  !(s.edgeSpace || s.edgeBreak || s.breakSpace || s.spaceBreak || s.special || s.hasBreak || s.marked)

def singleAllowed (s : Shape) : Bool := !(s.breakSpace || s.spaceBreak || s.special)

def literalAllowed (s : Shape) : Bool := !(s.trailingSpace || s.spaceBreak || s.special)

end Shape

/-- The style of a text; `simpleKey` when it stands before a colon on its line. -/
def style (simpleKey : Bool) (s : String) : Style :=
  let cs := s.toList
  let shape := shape cs
  if simpleKey && shape.hasBreak then .double
  else if cs.contains '\n' then (if shape.literalAllowed && !simpleKey then .literal else .double)
  else if Scalar.isPlain s && shape.plainAllowed then .plain
  else if shape.singleAllowed then .single
  else .double

/-! ## Texts -/

def spaces (n : Nat) : String := String.ofList (List.replicate n ' ')

def hexUpper (width n : Nat) : List Char :=
  let digits := (Nat.toDigits 16 n).map Char.toUpper
  List.replicate (width - digits.length) '0' ++ digits

def escapeLetter? : Char → Option Char
  | '\x00' => some '0'
  | '\x07' => some 'a'
  | '\x08' => some 'b'
  | '\t' => some 't'
  | '\n' => some 'n'
  | '\x0b' => some 'v'
  | '\x0c' => some 'f'
  | '\r' => some 'r'
  | '\x1b' => some 'e'
  | '"' => some '"'
  | '\\' => some '\\'
  | '\u0085' => some 'N'
  | '\u00a0' => some '_'
  | '\u2028' => some 'L'
  | '\u2029' => some 'P'
  | _ => none

def escapeDouble (c : Char) : List Char :=
  if isPrintable c && !isBreak c && c != '"' && c != '\\' then [c]
  else match escapeLetter? c with
    | some e => ['\\', e]
    | none =>
      let n := c.toNat
      if n ≤ 0xff then '\\' :: 'x' :: hexUpper 2 n
      else if n ≤ 0xffff then '\\' :: 'u' :: hexUpper 4 n
      else '\\' :: 'U' :: hexUpper 8 n

def double (s : String) : String := String.ofList ('"' :: (s.toList.flatMap escapeDouble ++ ['"']))

/-- The inside of a text quoted once: quotes twice, and each line behind breaks indented. -/
def singleFrom (indent : Nat) (broken : Bool) : List Char → List Char
  | [] => if broken then List.replicate indent ' ' else []
  | c :: rest =>
    if isBreak c then c :: singleFrom indent true rest
    else
      (if broken then List.replicate indent ' ' else []) ++ (if c == '\'' then ['\'', '\''] else [c])
        ++ singleFrom indent false rest

def single (indent : Nat) (s : String) : String := String.ofList ('\'' :: (singleFrom indent false s.toList ++ ['\'']))

/-- The lines of a literal block, each behind a newline and its indentation. -/
def literalFrom (indent : Nat) (broken : Bool) : List Char → List Char
  | [] => []
  | c :: rest =>
    if isBreak c then c :: literalFrom indent true rest
    else (if broken then List.replicate indent ' ' else []) ++ c :: literalFrom indent false rest

/-- The header says how deep the block is when its first line begins with a blank or is empty, and
    what to do with the breaks at its end. -/
def literal (indent : Nat) (s : String) : String :=
  let cs := s.toList
  let depth := if cs.head?.any (fun c => isSpace c || isBreak c) then "2" else ""
  let chomp := match cs.reverse with
    | a :: b :: _ => if !isBreak a then "-" else if isBreak b then "+" else ""
    | [a] => if isBreak a then "+" else "-"
    | [] => "-"
  "|" ++ depth ++ chomp ++ "\n" ++ String.ofList (literalFrom indent true cs)

/-- A text within a block at column `indent`. -/
def scalarText (simpleKey : Bool) (indent : Nat) (s : String) : String :=
  match style simpleKey s with
  | .plain => s
  | .single => single (indent + 2) s
  | .double => double s
  | .literal => literal (indent + 2) s

/-! ## Values -/

/-- Whether a key can stand before a colon on its line. -/
def isSimpleKey (s : String) : Bool := !s.toList.any endsLine && s.utf8ByteSize ≤ 128

/-- The end of a line, unless the text before it is a block that ended its line already. -/
def endLine (s : String) : String := if s.toList.getLast?.any isBreak then s else s ++ "\n"

/-- A key with its colon, at column `indent`. -/
def keyText (indent : Nat) (s : String) : String :=
  if isSimpleKey s then scalarText true indent s ++ ":"
  else endLine ("? " ++ scalarText false indent s) ++ spaces indent ++ ":"

/-- A scalar or an empty collection; nothing for a collection with entries. -/
def leaf? (indent : Nat) : Yaml → Option String
  | .null => some "null"
  | .bool b => some (if b then "true" else "false")
  | .int i => some (toString i)
  | .float x => some (floatLayout.render x)
  | .infinity negative => some (if negative then "-.inf" else ".inf")
  | .nan => some ".nan"
  | .text s => some (scalarText false indent s)
  | .sequence [] => some "[]"
  | .mapping [] => some "\x7b\x7d"
  | _ => none

/-- What comes before a value. -/
inductive After where
  /-- A key on its line. -/
  | key
  /-- A dash, or the colon of a key with a question mark. -/
  | mark
  deriving DecidableEq

mutual

/-- A value behind a key or a mark at column `indent`, with the end of its last line. -/
def valueText (after : After) (indent : Nat) : Yaml → String
  | .sequence (item :: rest) =>
    match after with
    | .key => "\n" ++ itemLines indent (item :: rest)
    | .mark => " " ++ (itemLines (indent + 2) (item :: rest)).drop (indent + 2)
  | .mapping (entry :: rest) =>
    match after with
    | .key => "\n" ++ entryLines (indent + 2) (entry :: rest)
    | .mark => " " ++ (entryLines (indent + 2) (entry :: rest)).drop (indent + 2)
  | .tagged _ v => valueText after indent v
  | v => endLine (" " ++ (leaf? indent v).getD "")

def itemLines (indent : Nat) : List Yaml → String
  | [] => ""
  | item :: rest => spaces indent ++ "-" ++ valueText .mark indent item ++ itemLines indent rest

def entryLines (indent : Nat) : List (Yaml × Yaml) → String
  | [] => ""
  | (key, value) :: rest =>
    let name := key.key?.getD ""
    spaces indent ++ keyText indent name
      ++ valueText (if isSimpleKey name then .key else .mark) indent value ++ entryLines indent rest

end

end Writer

/-- A mapping as a text of its own; any other value stands on one line. -/
def render : Yaml → String
  | .mapping (entry :: rest) => Writer.entryLines 0 (entry :: rest)
  | .sequence (item :: rest) => Writer.itemLines 0 (item :: rest)
  | v => Writer.endLine ((Writer.leaf? 0 v).getD "")

end Regroup.Yaml
