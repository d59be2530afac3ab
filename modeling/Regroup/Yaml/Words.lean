/-
  Regroup.Yaml.Words — the tokens of a YAML text that hold words: scalars, tags, anchors and
  directives.

  Each function takes its token off the front of the text, or fails. Lines of a plain or
  quoted scalar are folded: one break is a blank, further breaks are kept (`Fold`). Lines of
  a block scalar keep their breaks, or are folded where both neighbours begin without blank.
-/

import Regroup.Yaml.Token

namespace Regroup.Yaml

/-! ## Folding -/

/-- Blanks and breaks between two words of a scalar. -/
structure Fold where
  blanks : List Char := []
  /-- Whether there was a break; from then on blanks do not count. -/
  broken : Bool := false
  first : List Char := []
  more : List Char := []

/-- What stands between the words. -/
def Fold.text (f : Fold) : List Char :=
  if !f.broken then f.blanks
  else if f.first == ['\n'] then (if f.more.isEmpty then [' '] else f.more)
  else f.first ++ f.more

/-- The blanks and breaks up to the next word. After a break, no tab may stand before `indent`. -/
def takeFold (indent : Int) (f : Fold) : List Spot → Option (Fold × List Spot)
  | [] => some (f, [])
  | s :: rest =>
    if isBlank s.char then
      if f.broken then
        if s.char == '\t' && (s.column : Int) < indent then none else takeFold indent f rest
      else takeFold indent { f with blanks := f.blanks ++ [s.char] } rest
    else if isBreak s.char then
      if f.broken then takeFold indent { f with more := f.more ++ [s.char] } rest
      else takeFold indent { f with broken := true, first := [s.char] } rest
    else some (f, s :: rest)

/-! ## Plain scalars -/

def isFlowMark (c : Char) : Bool := c == ',' || c == '[' || c == ']' || c == '{' || c == '}'

/-- A word of a plain scalar. Within brackets a colon may not be followed by one of their marks. -/
def takePlainWord (flow : Bool) : List Spot → Option (List Char × List Spot)
  | [] => some ([], [])
  | s :: rest =>
    if isBlank s.char || isBreak s.char then some ([], s :: rest)
    else if flow && s.char == ':' && rest.head?.any (fun t => isFlowMark t.char || t.char == '?') then none
    else if (s.char == ':' && Spot.atGap rest) || (flow && isFlowMark s.char) then some ([], s :: rest)
    else (takePlainWord flow rest).map fun (word, rest) => (s.char :: word, rest)

/-- A plain scalar whose lines stand at `indent` or deeper, and whether a break follows it. -/
def takePlain (flow : Bool) (indent : Int) :
    Nat → List Char → Fold → List Spot → Option (List Char × Bool × List Spot)
  | 0, done, fold, cs => some (done, fold.broken, cs)
  | fuel + 1, done, fold, cs =>
    if (Spot.marker? cs).isSome || Spot.starts '#' cs then some (done, fold.broken, cs)
    else do
      let (word, rest) ← takePlainWord flow cs
      if word.isEmpty then return (done, fold.broken, rest)
      let done := done ++ fold.text ++ word
      if !rest.isEmpty && Spot.atGap rest then
        let (fold, rest) ← takeFold indent {} rest
        if !flow && rest.head?.any (fun s => (s.column : Int) < indent) then return (done, fold.broken, rest)
        takePlain flow indent fuel done fold rest
      else return (done, false, rest)

/-! ## Quoted scalars -/

def hex? (c : Char) : Option Nat :=
  if '0' ≤ c ∧ c ≤ '9' then some (c.toNat - '0'.toNat)
  else if 'a' ≤ c ∧ c ≤ 'f' then some (c.toNat - 'a'.toNat + 10)
  else if 'A' ≤ c ∧ c ≤ 'F' then some (c.toNat - 'A'.toNat + 10)
  else none

/-- A character from exactly `n` hexadecimal digits. -/
def takeHex (n : Nat) (cs : List Spot) : Option (Char × List Spot) := do
  let digits := cs.take n
  if digits.length < n then none
  let code ← digits.foldlM (fun code s => (hex? s.char).map (16 * code + ·)) 0
  if code.isValidChar then return (Char.ofNat code, cs.drop n) else none

/-- The character that a letter stands for behind a backslash. -/
def escape? : Char → Option Char
  | '0' => some '\x00'
  | 'a' => some '\x07'
  | 'b' => some '\x08'
  | 't' | '\t' => some '\t'
  | 'n' => some '\n'
  | 'v' => some '\x0b'
  | 'f' => some '\x0c'
  | 'r' => some '\r'
  | 'e' => some '\x1b'
  | ' ' => some ' '
  | '"' => some '"'
  | '/' => some '/'
  | '\\' => some '\\'
  | 'N' => some '\u0085'
  | '_' => some '\u00a0'
  | 'L' => some '\u2028'
  | 'P' => some '\u2029'
  | _ => none

/-- How a word of a quoted scalar ends. -/
inductive QuotedEnd where
  | closed
  /-- A backslash at the end of the line. -/
  | joined
  | gap
  deriving DecidableEq

def takeQuotedWord (single : Bool) : Nat → List Spot → Option (List Char × QuotedEnd × List Spot)
  | 0, _ => none
  | fuel + 1, cs =>
    let push (c : Char) (rest : List Spot) : Option (List Char × QuotedEnd × List Spot) :=
      (takeQuotedWord single fuel rest).map fun (word, stop, rest) => (c :: word, stop, rest)
    match cs with
    | [] => some ([], .gap, [])
    | s :: rest =>
      if isBlank s.char || isBreak s.char then some ([], .gap, s :: rest)
      else if single then
        if s.char == '\'' then
          if Spot.starts '\'' rest then push '\'' (rest.drop 1) else some ([], .closed, rest)
        else push s.char rest
      else if s.char == '"' then some ([], .closed, rest)
      else if s.char == '\\' then
        match rest with
        | [] => none
        | e :: rest =>
          if isBreak e.char then some ([], .joined, rest)
          else if e.char == 'x' || e.char == 'u' || e.char == 'U' then do
            let (c, rest) ← takeHex (if e.char == 'x' then 2 else if e.char == 'u' then 4 else 8) rest
            push c rest
          else do push (← escape? e.char) rest
      else push s.char rest

/-- A quoted scalar after its opening quote. -/
def takeQuoted (single : Bool) : Nat → List Char → List Spot → Option (List Char × List Spot)
  | 0, _, _ => none
  | fuel + 1, done, cs =>
    if cs.isEmpty || (Spot.marker? cs).isSome then none
    else do
      let (word, stop, rest) ← takeQuotedWord single (cs.length + 1) cs
      let done := done ++ word
      if stop = .closed then return (done, rest)
      let (fold, rest) ← takeFold 0 { broken := stop = .joined } rest
      takeQuoted single fuel (done ++ fold.text) rest

/-! ## Block scalars -/

inductive Chomp where
  | strip
  | clip
  | keep
  deriving DecidableEq

/-- The breaks and indentation before a line of a block scalar. An `indent` of 0 is not known yet:
    then the widest column met is reported. A tab may not stand for indentation. -/
def takeIndent (indent : Nat) : Nat → List Spot → Option (List Char × Nat × List Spot)
  | widest, [] => some ([], widest, [])
  | widest, s :: rest =>
    let before := indent == 0 || s.column < indent
    if before && s.char == ' ' then takeIndent indent (max widest (s.column + 1)) rest
    else if before && s.char == '\t' then none
    else if isBreak s.char then
      (takeIndent indent (max widest s.column) rest).map fun (breaks, widest, rest) => (s.char :: breaks, widest, rest)
    else some ([], max widest s.column, s :: rest)

/-- The lines of a block scalar at column `indent`: the text so far, the break that ended it and
    the breaks after that one. -/
def takeLines (literal : Bool) (indent : Nat) :
    Nat → List Char → List Char → List Char → Bool → List Spot →
      Option (List Char × List Char × List Char × List Spot)
  | 0, done, last, more, _, cs => some (done, last, more, cs)
  | fuel + 1, done, last, more, wasBlank, cs =>
    match cs with
    | [] => some (done, last, more, [])
    | s :: _ =>
      if s.column ≠ indent then some (done, last, more, cs)
      else do
        let blank := isBlank s.char
        let joint :=
          if !literal && last == ['\n'] && !wasBlank && !blank then (if more.isEmpty then [' '] else []) else last
        let (line, rest) := Spot.span (!isBreak ·) cs
        let (last, rest) := match rest with
          | b :: rest => ([b.char], rest)
          | [] => ([], [])
        let (breaks, _, rest) ← takeIndent indent 0 rest
        takeLines literal indent fuel (done ++ joint ++ more ++ line) last breaks blank rest

/-- The header of a block scalar: its chomping and its stated indentation, in either order. -/
def takeHeader (cs : List Spot) : Option (Chomp × Nat × List Spot) :=
  let chomp? : List Spot → Option (Chomp × List Spot)
    | s :: rest => if s.char == '+' then some (.keep, rest) else if s.char == '-' then some (.strip, rest) else none
    | [] => none
  let width? : List Spot → Option (Nat × List Spot)
    | s :: rest => if s.char.isDigit then some (s.char.toNat - '0'.toNat, rest) else none
    | [] => none
  let (chomp, width, rest) := match chomp? cs with
    | some (chomp, rest) =>
      match width? rest with
      | some (width, rest) => (chomp, some width, rest)
      | none => (chomp, none, rest)
    | none =>
      match width? cs with
      | some (width, rest) =>
        match chomp? rest with
        | some (chomp, rest) => (chomp, some width, rest)
        | none => (.clip, some width, rest)
      | none => (.clip, none, cs)
  if width = some 0 then none else some (chomp, width.getD 0, rest)

/-- The rest of a line that may hold blanks and a comment only. -/
def takeLineEnd (cs : List Spot) : Option (List Spot) :=
  let cs := Spot.skip isBlank cs
  let cs := if Spot.starts '#' cs then Spot.skip (!isBreak ·) cs else cs
  if Spot.atBreak cs then some (cs.drop 1) else none

/-- A block scalar after its mark, within a block at column `parent`. -/
def takeBlock (literal : Bool) (parent : Int) (cs : List Spot) : Option (List Char × List Spot) := do
  let (chomp, width, cs) ← takeHeader cs
  let cs ← takeLineEnd cs
  let stated := if width = 0 then 0 else (max parent 0).toNat + width
  let (breaks, widest, cs) ← takeIndent stated 0 cs
  let indent := if stated = 0 then max (max widest (parent + 1).toNat) 1 else stated
  let (done, last, more, cs) ← takeLines literal indent (cs.length + 1) [] [] breaks false cs
  return (done ++ (if chomp = .strip then [] else last) ++ (if chomp = .keep then more else []), cs)

/-! ## Tags -/

def tagMarks : List Char := [';', '/', '?', ':', '@', '&', '=', '+', '$', '.', '!', '~', '*', '\'', '(', ')']

def isTagChar (verbatim : Bool) (c : Char) : Bool :=
  isWord c || tagMarks.contains c || (verbatim && (c == ',' || c == '[' || c == ']'))

/-- An octet written as two hexadecimal digits behind a percent sign. -/
def takeOctet : List Spot → Option (Nat × List Spot)
  | p :: a :: b :: rest => do
    if p.char ≠ '%' then none
    return (16 * (← hex? a.char) + (← hex? b.char), rest)
  | _ => none

/-- The further octets of a character: six bits each. -/
def takeOctets : Nat → Nat → List Spot → Option (Nat × List Spot)
  | 0, code, cs => some (code, cs)
  | n + 1, code, cs => do
    let (octet, cs) ← takeOctet cs
    if octet / 64 = 2 then takeOctets n (64 * code + octet % 64) cs else none

/-- A character written in octets, as many as the first one says. They make none when fewer would
    do or when there is no such character. -/
def takeEscape (cs : List Spot) : Option (Option Char × List Spot) := do
  let (octet, cs) ← takeOctet cs
  let (least, code, cs) ←
    if octet < 0x80 then some (0, octet, cs)
    else if octet / 32 = 6 then (takeOctets 1 (octet % 32) cs).map (0x80, ·)
    else if octet / 16 = 14 then (takeOctets 2 (octet % 16) cs).map (0x800, ·)
    else if octet / 8 = 30 then (takeOctets 3 (octet % 8) cs).map (0x10000, ·)
    else none
  return (if least ≤ code ∧ code.isValidChar then some (Char.ofNat code) else none, cs)

/-- What is written of a tag. -/
def takeTagChars (verbatim : Bool) : Nat → List Spot → Option (List (Option Char) × List Spot)
  | 0, cs => some ([], cs)
  | fuel + 1, cs =>
    match cs with
    | [] => some ([], [])
    | s :: rest =>
      if s.char == '%' then do
        let (c, rest) ← takeEscape cs
        let (more, rest) ← takeTagChars verbatim fuel rest
        return (c :: more, rest)
      else if isTagChar verbatim s.char then
        (takeTagChars verbatim fuel rest).map fun (more, rest) => (some s.char :: more, rest)
      else some ([], cs)

/-- Exclamation mark, word characters, and a second mark if there is one. -/
def takeHandle : List Spot → Option (List Char × List Spot)
  | s :: rest =>
    if s.char ≠ '!' then none
    else
      let (word, rest) := Spot.span isWord rest
      if Spot.starts '!' rest then some ('!' :: (word ++ ['!']), rest.drop 1) else some ('!' :: word, rest)
  | [] => none

/-- A tag: verbatim in angle brackets, or a handle and a suffix. -/
def takeTag (flow : Bool) (cs : List Spot) : Option (Token × List Spot) := do
  let (token, cs) ←
    if Spot.starts '<' (cs.drop 1) then do
      let (uri, cs) ← takeTagChars true cs.length (cs.drop 2)
      if uri.isEmpty || !Spot.starts '>' cs then none
      some (Token.tag "" (.ofWritten uri), cs.drop 1)
    else do
      let (handle, cs) ← takeHandle cs
      let (suffix, cs) ← takeTagChars false cs.length cs
      if handle.length > 1 && handle.getLast? == some '!' then
        if suffix.isEmpty then none
        some (.tag (String.ofList handle) (.ofWritten suffix), cs)
      else
        let suffix := Tag.ofWritten ((handle.drop 1).map some ++ suffix)
        some (if suffix.chars.isEmpty then .tag "" (.ofText "!") else .tag "!" suffix, cs)
  if Spot.atGap cs || (flow && Spot.starts ',' cs) then return (token, cs) else none

/-- Marks that may follow the name of an anchor at once. -/
def anchorEnds : List Char := ['?', ':', ',', ']', '}', '%', '@', '\x60']

/-- The name of an anchor or alias after its mark. -/
def takeAnchor (cs : List Spot) : Option (String × List Spot) :=
  let (name, cs) := Spot.span isWord cs
  let ends := Spot.atGap cs || cs.head?.any fun s => anchorEnds.contains s.char
  if name.isEmpty || !ends then none else some (String.ofList name, cs)

/-! ## Directives -/

/-- A number of at most nine digits. -/
def takeNumber (cs : List Spot) : Option (Nat × List Spot) :=
  let (digits, cs) := Spot.span Char.isDigit cs
  if digits.isEmpty || digits.length > 9 then none
  else some (digits.foldl (fun n c => 10 * n + (c.toNat - '0'.toNat)) 0, cs)

/-- A directive after its percent sign. -/
def takeDirective (cs : List Spot) : Option (Token × List Spot) := do
  let (name, cs) := Spot.span isWord cs
  if !Spot.atGap cs then none
  let cs := Spot.skip isBlank cs
  let (token, cs) ←
    if name == "YAML".toList then do
      let (major, cs) ← takeNumber cs
      if !Spot.starts '.' cs then none
      let (minor, cs) ← takeNumber (cs.drop 1)
      some (Token.version major minor, cs)
    else if name == "TAG".toList then do
      let (handle, cs) ← takeHandle cs
      if handle.length > 1 && handle.getLast? != some '!' then none
      if !cs.head?.any (fun s => isBlank s.char) then none
      let (meaning, cs) ← takeTagChars true cs.length (Spot.skip isBlank cs)
      if meaning.isEmpty || !Spot.atGap cs then none
      some (.handle (String.ofList handle) (.ofWritten meaning), cs)
    else none
  return (token, ← takeLineEnd cs)

end Regroup.Yaml
