/-
  Regroup.Placeholder — the template text of a substitution.

  `${content}` is a placeholder, `${!content}` stands for itself and an opening without a
  closing brace is text. An escape ends its text segment, so two texts may be neighbours.
  Nothing of the text is lost: `join` undoes `split`.
-/

namespace Regroup.Placeholder

inductive Segment where
  | text (s : String)
  | placeholder (content : String)
  deriving DecidableEq, Repr

namespace Segment

/-- A text segment, unless it is empty. -/
def ofText : List Char → List Segment
  | [] => []
  | cs => [.text (String.ofList cs)]

/-- `pending` is the text since the last segment, `opened` what has been read of a placeholder. -/
def splitFrom (pending : List Char) (opened : Option (List Char)) : List Char → List Segment
  | [] =>
    match opened with
    | none => ofText pending
    | some content => ofText (pending ++ '$' :: '{' :: content)
  | '$' :: '{' :: rest =>
    match opened with
    | none => splitFrom pending (some []) rest
    | some content => splitFrom pending (some (content ++ ['$', '{'])) rest
  | c :: rest =>
    match opened with
    | none => splitFrom (pending ++ [c]) none rest
    | some content =>
      if c = '}' then
        if content.head? = some '!' then
          .text (String.ofList (pending ++ '$' :: '{' :: (content ++ ['}']))) :: splitFrom [] none rest
        else
          ofText pending ++ .placeholder (String.ofList content) :: splitFrom [] none rest
      else splitFrom pending (some (content ++ [c])) rest

def split (template : String) : List Segment := splitFrom [] none template.toList

def render : Segment → String
  | .text s => s
  | .placeholder content => "$\x7b" ++ content ++ "\x7d"

def join (segments : List Segment) : String := String.join (segments.map render)

end Segment

/-- The contents of the placeholders, in order. -/
def contents (template : String) : List String :=
  (Segment.split template).filterMap fun
    | .placeholder content => some content
    | .text _ => none

end Regroup.Placeholder
