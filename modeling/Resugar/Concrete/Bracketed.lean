import Resugar.Concrete.Basic

/-!
# Concrete trees in brackets

A concrete tree can be written as `["label", start, stop, child, …]`. The label
is the kind of the node, with marks before it: `'` for a token, `!` for a
missing node, and the name of the field with a colon (`Label.ofString`). Commas
and white space only separate. `Concrete.ofString?` reads such a text.
-/

namespace Resugar

/-- The label that a text spells, for a range of bytes. A text that begins with
    a mark has no field. -/
def Label.ofString (text : String) (start stop : Nat) : Label :=
  let cs := text.toList
  let (field, rest) : Option String × List Char :=
    if cs.head? == some '\'' || cs.head? == some '!' || !cs.contains ':' then (none, cs)
    else (some (String.ofList (cs.takeWhile (· != ':'))), (cs.dropWhile (· != ':')).drop 1)
  let isMissing := rest.head? == some '!'
  let rest := if isMissing then rest.drop 1 else rest
  let isToken := rest.head? == some '\''
  let rest := if isToken then rest.drop 1 else rest
  ⟨String.ofList rest, field, !isToken, isMissing, start, stop⟩

namespace Bracketed

/-- A piece of the text of a tree. -/
inductive Token where
  | opening
  | closing
  | text (s : String)
  | number (n : Nat)

/-- What is being read. -/
inductive Mode where
  | separator
  | number (n : Nat)
  | text (done : List Char)
  | escape (done : List Char)

/-- A reader of tokens: what is read, and the tokens before it, last first. -/
structure Lexer where
  mode : Mode := .separator
  tokens : List Token := []

/-- The character that an escape stands for. -/
def unescape : Char → Char
  | 'n' => '\n'
  | 't' => '\t'
  | 'r' => '\r'
  | c => c

/-- The reader between tokens, after one more character. -/
def Lexer.separate? (tokens : List Token) (c : Char) : Option Lexer :=
  if c = '[' then some ⟨.separator, .opening :: tokens⟩
  else if c = ']' then some ⟨.separator, .closing :: tokens⟩
  else if c = '"' then some ⟨.text [], tokens⟩
  else if c.isDigit then some ⟨.number (c.toNat - 48), tokens⟩
  else if c = ',' || c.isWhitespace then some ⟨.separator, tokens⟩
  else none

/-- The reader after one more character. -/
def Lexer.step? (l : Lexer) (c : Char) : Option Lexer :=
  match l.mode with
  | .separator => separate? l.tokens c
  | .number n =>
    if c.isDigit then some { l with mode := .number (n * 10 + (c.toNat - 48)) }
    else separate? (.number n :: l.tokens) c
  | .text done =>
    if c = '"' then some ⟨.separator, .text (String.ofList done.reverse) :: l.tokens⟩
    else if c = '\\' then some { l with mode := .escape done }
    else some { l with mode := .text (c :: done) }
  | .escape done => some { l with mode := .text (unescape c :: done) }

/-- A node of which the end has not been read. -/
structure Draft where
  label : Option String := none
  numbers : List Nat := []
  children : List Concrete := []

/-- The node of a draft with a label and two numbers. -/
def Draft.finish? (d : Draft) : Option Concrete :=
  match d.label, d.numbers with
  | some text, [start, stop] => some (.node (Label.ofString text start stop) d.children.reverse)
  | _, _ => none

/-- The nodes that are open, innermost first, and the tree once it is read. -/
structure Builder where
  drafts : List Draft := []
  tree : Option Concrete := none

/-- The nodes after one more token. -/
def Builder.step? (b : Builder) : Token → Option Builder
  | .opening => if b.tree.isNone then some { b with drafts := {} :: b.drafts } else none
  | .text s =>
    match b.drafts with
    | d :: ds =>
      if d.label.isNone then some { b with drafts := { d with label := some s } :: ds } else none
    | [] => none
  | .number n =>
    match b.drafts with
    | d :: ds => some { b with drafts := { d with numbers := d.numbers ++ [n] } :: ds }
    | [] => none
  | .closing =>
    match b.drafts with
    | [] => none
    | [d] => d.finish?.map fun t => ⟨[], some t⟩
    | d :: parent :: ds =>
      d.finish?.map fun t =>
        { b with drafts := { parent with children := t :: parent.children } :: ds }

end Bracketed

/-- The concrete tree that a text spells. -/
def Concrete.ofString? (text : String) : Option Concrete := do
  let lexer ← text.toList.foldlM Bracketed.Lexer.step? {}
  let builder ← lexer.tokens.reverse.foldlM Bracketed.Builder.step? {}
  builder.tree

end Resugar
