/-
  Regroup.Yaml.Lexer — a YAML text as a list of tokens.

  Blocks open and close by indentation. An implicit key shows itself only by the colon behind
  it, so every place where one may begin is remembered (`Candidate`), at most one for each
  level of brackets; the key token, and the start of the block it may open, are put in front
  of it when all tokens are known (`splice`). A key must be on one line, and the colon within
  1024 bytes of its start.
-/

import Regroup.Yaml.Words

namespace Regroup.Yaml

/-- A token that may turn out to be an implicit key. -/
structure Candidate where
  /-- Whether the token cannot be anything else. -/
  required : Bool
  /-- How many tokens come before it. -/
  before : Nat
  line : Nat
  column : Nat
  index : Nat

/-- An implicit key that was found: the tokens before it, and whether it opens a block. -/
structure ImplicitKey where
  before : Nat
  opens : Bool

structure Lexer where
  rest : List Spot
  /-- The tokens so far, the last one first, and their number. -/
  tokens : List Token := []
  count : Nat := 0
  keys : List ImplicitKey := []
  /-- The column of the innermost block, and of those around it. -/
  indent : Int := -1
  outer : List Int := []
  /-- The candidate of each level of brackets, the innermost first; the last one is of the block. -/
  candidates : List (Option Candidate) := [none]
  keyAllowed : Bool := true

namespace Lexer

def inFlow (l : Lexer) : Bool := l.candidates.length > 1

def push (l : Lexer) (t : Token) : Lexer := { l with tokens := t :: l.tokens, count := l.count + 1 }

/-! ## Implicit keys -/

/-- The innermost candidate given up; one that had to be a key may not be. -/
def dropCandidate (l : Lexer) : Option Lexer :=
  match l.candidates with
  | some c :: outer => if c.required then none else some { l with candidates := none :: outer }
  | _ => some l

/-- What comes next may be an implicit key, where one is allowed. -/
def saveCandidate (l : Lexer) (s : Spot) : Option Lexer :=
  if l.keyAllowed then do
    let l ← l.dropCandidate
    let c : Candidate := ⟨!l.inFlow && l.indent == s.column, l.count, s.line, s.column, s.index⟩
    return { l with candidates := some c :: l.candidates.drop 1 }
  else some l

/-- Candidates too far from `s` given up. -/
def expire (l : Lexer) (s : Spot) : Option Lexer := do
  let candidates ← l.candidates.mapM fun
    | none => some none
    | some c =>
      if c.line < s.line || c.index + 1024 < s.index then (if c.required then none else some none)
      else some (some c)
  return { l with candidates }

/-! ## Indentation -/

/-- Closes the blocks deeper than `column`. -/
def closeBlocks (column : Int) (l : Lexer) : Lexer :=
  if l.inFlow then l
  else
    let deeper := (l.indent :: l.outer).takeWhile (· > column)
    match (l.indent :: l.outer).drop deeper.length with
    | indent :: outer => deeper.foldl (fun l _ => l.push .closeBlock) { l with indent, outer }
    | [] => l

/-- Opens a block at `column`, if that is deeper than the present one. -/
def openBlock (column : Nat) (t : Token) (l : Lexer) : Lexer :=
  if l.inFlow || l.indent ≥ column then l
  else { l.push t with indent := column, outer := l.indent :: l.outer }

/-! ## Tokens -/

/-- A token of which no part can be a key. -/
def plainly (l : Lexer) (t : Token) (keyAllowed : Bool) (rest : List Spot) : Option Lexer := do
  let l ← l.dropCandidate
  return { l.push t with keyAllowed, rest }

/-- A token that may begin a key, behind which none may begin. -/
def keyLike (l : Lexer) (s : Spot) (t : Token) (rest : List Spot) : Option Lexer := do
  let l ← l.saveCandidate s
  return { l.push t with keyAllowed := false, rest }

def opening (l : Lexer) (s : Spot) (t : Token) (rest : List Spot) : Option Lexer := do
  let l ← l.saveCandidate s
  return { l.push t with keyAllowed := true, candidates := none :: l.candidates, rest }

def closing (l : Lexer) (t : Token) (rest : List Spot) : Option Lexer := do
  let l ← l.dropCandidate
  let candidates := if l.inFlow then l.candidates.drop 1 else l.candidates
  return { l.push t with keyAllowed := false, candidates, rest }

/-- A dash that begins an item. -/
def item (l : Lexer) (s : Spot) (rest : List Spot) : Option Lexer := do
  if !l.inFlow && !l.keyAllowed then none
  (l.openBlock s.column .openBlockSequence).plainly .item true rest

/-- A question mark that begins a key. -/
def explicitKey (l : Lexer) (s : Spot) (rest : List Spot) : Option Lexer := do
  if !l.inFlow && !l.keyAllowed then none
  (l.openBlock s.column .openBlockMapping).plainly .key (!l.inFlow) rest

/-- A colon: what stands before it on the line is a key, if it can be. -/
def value (l : Lexer) (s : Spot) (rest : List Spot) : Option Lexer :=
  match l.candidates with
  | some c :: outer =>
    let opens := !l.inFlow && l.indent < c.column
    let l := { l with candidates := none :: outer, keys := ⟨c.before, opens⟩ :: l.keys }
    let l := if opens then { l with indent := c.column, outer := l.indent :: l.outer } else l
    some { l.push .value with keyAllowed := false, rest }
  | _ =>
    if !l.inFlow && !l.keyAllowed then none
    else some { (l.openBlock s.column .openBlockMapping).push .value with keyAllowed := !l.inFlow, rest }

def plainScalar (l : Lexer) (s : Spot) : Option Lexer := do
  let l ← l.saveCandidate s
  let (word, broken, rest) ← takePlain l.inFlow (l.indent + 1) (l.rest.length + 1) [] {} l.rest
  return { l.push (.scalar true (String.ofList word)) with keyAllowed := broken, rest }

def quotedScalar (l : Lexer) (s : Spot) (single : Bool) (rest : List Spot) : Option Lexer := do
  let (word, rest) ← takeQuoted single (rest.length + 1) [] rest
  l.keyLike s (.scalar false (String.ofList word)) rest

def blockScalar (l : Lexer) (literal : Bool) (rest : List Spot) : Option Lexer := do
  let (word, rest) ← takeBlock literal l.indent rest
  l.plainly (.scalar false (String.ofList word)) true rest

/-- Blanks, breaks and comments before the next token. A tab is a blank where no key may begin;
    a new line of a block may begin one. A byte order mark in front of a line takes a column. -/
def skipGap (flow : Bool) : Bool → Bool → List Spot → Bool × List Spot
  | keyAllowed, _, [] => (keyAllowed, [])
  | keyAllowed, comment, s :: rest =>
    if isBreak s.char then skipGap flow (keyAllowed || !flow) false rest
    else if comment then skipGap flow keyAllowed true rest
    else if s.char == ' ' || ((flow || !keyAllowed) && s.char == '\t') || (s.column == 0 && s.char == '\ufeff') then
      skipGap flow keyAllowed false rest
    else if s.char == '#' then skipGap flow keyAllowed true rest
    else (keyAllowed, s :: rest)

/-- Marks that begin another token, or none. -/
def marks : List Char := ['#', '&', '*', '!', '|', '>', '\'', '"', '%', '@', '\x60', '\t']

/-- Whether a plain scalar may begin with `c`. -/
def beginsPlain (flow : Bool) (c : Char) (rest : List Spot) : Bool :=
  if c == '-' then !rest.head?.any (fun s => isBlank s.char)
  else if c == '?' || c == ':' then !flow && !Spot.atGap rest
  else !isFlowMark c && !marks.contains c

/-- One token of a text that goes on with `s`. -/
def token (l : Lexer) (s : Spot) (rest : List Spot) : Option Lexer :=
  match Spot.marker? (s :: rest) with
  | some (t, rest) => (l.closeBlocks (-1)).plainly t false rest
  | none =>
    if s.column == 0 && s.char == '%' then do
      let (t, rest) ← takeDirective rest
      (l.closeBlocks (-1)).plainly t false rest
    else
      let gap := Spot.atGap rest
      match s.char with
      | '[' => l.opening s .openSequence rest
      | '{' => l.opening s .openMapping rest
      | ']' => l.closing .closeSequence rest
      | '}' => l.closing .closeMapping rest
      | ',' => l.plainly .comma true rest
      | '*' => do
        let (name, rest) ← takeAnchor rest
        l.keyLike s (.alias name) rest
      | '&' => do
        let (name, rest) ← takeAnchor rest
        l.keyLike s (.anchor name) rest
      | '!' => do
        let (t, rest) ← takeTag l.inFlow (s :: rest)
        l.keyLike s t rest
      | '\'' => l.quotedScalar s true rest
      | '"' => l.quotedScalar s false rest
      | c =>
        if c == '-' && gap then l.item s rest
        else if c == '?' && (l.inFlow || gap) then l.explicitKey s rest
        else if c == ':' && (l.inFlow || gap) then l.value s rest
        else if (c == '|' || c == '>') && !l.inFlow then l.blockScalar (c == '|') rest
        else if beginsPlain l.inFlow c rest then l.plainScalar s
        else none

/-- The tokens up to the end of the text. -/
def run : Nat → Lexer → Option Lexer
  | 0, _ => none
  | fuel + 1, l =>
    let (keyAllowed, rest) := skipGap l.inFlow l.keyAllowed false l.rest
    let l := { l with keyAllowed, rest }
    match rest with
    | [] => do (l.closeBlocks (-1)).plainly .streamEnd false []
    | s :: cs => do
      let l ← l.expire s
      run fuel (← (l.closeBlocks s.column).token s cs)

end Lexer

/-- The tokens with the implicit keys in their places; `n` counts those that came before. -/
def splice (n : Nat) (keys : List ImplicitKey) : List Token → List Token
  | [] => []
  | t :: ts =>
    match keys.find? (·.before == n) with
    | some key => (if key.opens then [.openBlockMapping, .key] else [.key]) ++ t :: splice (n + 1) keys ts
    | none => t :: splice (n + 1) keys ts

def tokens? (text : String) : Option (List Token) := do
  let spots ← spots? text
  let l ← Lexer.run (spots.length + 1) { rest := spots }
  return splice 0 l.keys l.tokens.reverse

end Regroup.Yaml
