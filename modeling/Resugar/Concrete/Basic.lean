import Resugar.Fault
import Resugar.Text.Utf8

/-!
# Concrete trees

A grammar splits source, given as bytes, into a *concrete tree*: every node has
a kind and a range of bytes, and possibly the name of the field in which its
parent holds it. Named nodes stand for syntax, the others for tokens. Where the
source has an error, there is a node of kind `ERROR` or one that is missing;
`Concrete.firstError?` finds the first of them.
-/

namespace Resugar

/-- Source as bytes. -/
abbrev Source := List UInt8

namespace Source

/-- The bytes of a range. -/
def slice (src : Source) (start stop : Nat) : List UInt8 :=
  (src.drop start).take (stop - start)

/-- The text of a range. -/
def text (src : Source) (start stop : Nat) : Except Fault Text :=
  match Utf8.decode? (src.slice start stop) with
  | some t => .ok t
  | none => .error .malformedBytes

/-- The line of an offset, from one. -/
def line (src : Source) (offset : Nat) : Nat :=
  (src.take offset).count 10 + 1

/-- The column of an offset, in bytes from one. -/
def column (src : Source) (offset : Nat) : Nat :=
  let before := src.take offset
  let lineLength := (before.reverse.takeWhile (· != 10)).length
  offset - (before.length - lineLength) + 1

end Source

/-- What a concrete node says about itself. -/
structure Label where
  kind : String
  field : Option String
  isNamed : Bool
  isMissing : Bool
  start : Nat
  stop : Nat
  deriving DecidableEq

namespace Label

/-- Whether the node marks an error. -/
def isError (l : Label) : Bool :=
  l.kind == "ERROR" || l.isMissing

/-- The kinds of nodes that may stand anywhere and mean nothing. -/
def isExtra (l : Label) : Bool :=
  l.kind == "comment" || l.kind == "hash_bang_line" || l.kind == "html_comment"

/-- The text of the node. -/
def text (src : Source) (l : Label) : Except Fault Text :=
  src.text l.start l.stop

end Label

/-- A concrete tree. -/
inductive Concrete where
  | node (label : Label) (children : List Concrete)

namespace Concrete

def label : Concrete → Label
  | node label _ => label

def children : Concrete → List Concrete
  | node _ children => children

mutual

/-- Whether the tree marks an error anywhere. -/
def hasError : Concrete → Bool
  | node label children => label.isError || anyError children

/-- `hasError` for some tree of a list. -/
def anyError : List Concrete → Bool
  | [] => false
  | c :: cs => hasError c || anyError cs

end

mutual

/-- The number of nodes of a tree. -/
def size : Concrete → Nat
  | node _ children => sizeAll children + 1

/-- `size` for a list of trees. -/
def sizeAll : List Concrete → Nat
  | [] => 0
  | c :: cs => size c + sizeAll cs

end

theorem sizeAll_append (cs ds : List Concrete) : sizeAll (cs ++ ds) = sizeAll cs + sizeAll ds := by
  induction cs with
  | nil => exact (Nat.zero_add _).symm
  | cons c cs ih => rw [List.cons_append, sizeAll, sizeAll, ih, Nat.add_assoc]

/-- Leaving trees out leaves fewer nodes. -/
theorem sizeAll_filter_le (p : Concrete → Bool) (cs : List Concrete) :
    sizeAll (cs.filter p) ≤ sizeAll cs := by
  induction cs with
  | nil => exact Nat.le_refl _
  | cons c cs ih =>
    rw [List.filter_cons]
    split
    · exact Nat.add_le_add_left ih _
    · exact Nat.le_trans ih (Nat.le_add_left _ _)

/-- The first node that marks an error in the trees on a stack. Only those trees
    below the top that have an error are put on the stack. -/
def search : List Concrete → Option Concrete
  | [] => none
  | c :: stack => if c.label.isError then some c else search (c.children.filter hasError ++ stack)
termination_by stack => sizeAll stack
decreasing_by
  obtain ⟨_, children⟩ := c
  rw [sizeAll_append, sizeAll, size]
  have := sizeAll_filter_le hasError children
  show sizeAll (children.filter hasError) + _ < _
  omega

/-- The first node that marks an error, from the top down; trees without one are
    passed over. -/
def firstError? (root : Concrete) : Option Concrete :=
  search [root]

/-- The fault of a tree that marks an error: the first forty bytes of the first
    erroneous node, and its place. -/
def syntaxFault (src : Source) (root : Concrete) : Fault :=
  let bad := (root.firstError?.getD root).label
  .syntaxError (Utf8.decodeLossy ((src.slice bad.start bad.stop).take 40)) (src.line bad.start)
    (src.column bad.start)

end Concrete

end Resugar
