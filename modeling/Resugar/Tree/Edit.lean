import Resugar.Tree.Field

/-!
# Edits

A node in a tree is named by the *path* to it: field names and positions in
lists, from the root down. Two equal nodes at different paths are different
nodes. An edit finds the field of a parent that holds a child (`Node.slotOf?`)
and changes what stands there; where the child is not directly below the parent,
nothing is changed.
-/

namespace Resugar

/-- A step of a path: into a field, or to a position in its list. -/
inductive PathStep where
  | field (name : String)
  | index (i : Nat)
  deriving DecidableEq

/-- The way from a root to a node. -/
abbrev Path := List PathStep

namespace Node

/-- The contents of the field with a given name. -/
def slot? (n : Node) (name : String) : Option (Slot Node) :=
  (n.fields.find? (·.name == name)).map Field.slot

/-- A node with other contents in one field. -/
def setField (n : Node) (name : String) (slot : Slot Node) : Node :=
  n.withSlots (n.fields.map fun field => if field.name == name then slot else field.slot)

/-- The node at a path. -/
def at? : Node → Path → Option Node
  | n, [] => some n
  | n, .field name :: .index i :: path =>
    match n.slot? name with
    | some (.list items) => (items[i]?.join).bind (at? · path)
    | _ => none
  | n, .field name :: path =>
    match n.slot? name with
    | some (.single child) => child.bind (at? · path)
    | _ => none
  | _, .index _ :: _ => none

/-- The tree with the node at a path changed. -/
def modifyAt (f : Node → Node) : Node → Path → Node
  | n, [] => f n
  | n, .field name :: .index i :: path =>
    match n.slot? name with
    | some (.list items) =>
      n.setField name (.list (items.modify i (Option.map (modifyAt f · path))))
    | _ => n
  | n, .field name :: path =>
    match n.slot? name with
    | some (.single child) => n.setField name (.single (child.map (modifyAt f · path)))
    | _ => n
  | n, .index _ :: _ => n

/-- The field of the parent that holds the child, and where in its list. -/
def slotOf? (root : Node) (parent child : Path) : Option (String × Option Nat) :=
  if parent.isPrefixOf child && (root.at? child).isSome then
    match child.drop parent.length with
    | [.field name] => some (name, none)
    | [.field name, .index i] => some (name, some i)
    | _ => none
  else none

/-- The tree with a node in place of the child, if the parent holds it. -/
def replaceChild? (root : Node) (parent child : Path) (new : Node) : Option Node :=
  (root.slotOf? parent child).map fun _ => root.modifyAt (fun _ => new) child

/-- The tree with any number of nodes in place of the child, if a list of the
    parent holds it. -/
def replaceInList? (root : Node) (parent child : Path) (new : List Node) : Option Node :=
  match root.slotOf? parent child with
  | some (name, some i) =>
    some (root.modifyAt (fun p =>
      match p.slot? name with
      | some (.list items) =>
        p.setField name (.list (items.take i ++ new.map some ++ items.drop (i + 1)))
      | _ => p) parent)
  | _ => none

/-- The tree without the child, if a list of the parent holds it. -/
def removeChild? (root : Node) (parent child : Path) : Option Node :=
  root.replaceInList? parent child []

end Node

end Resugar
