import Resugar.Table
import Resugar.Tree.Shape

/-!
# Renamed bindings

A `Renaming` says which bindings get another name. A binding that has got one
keeps it (`Renaming.add`). `Renaming.sweep` renames all identifiers of a tree;
on the way, `a.default` becomes `a` where `a` is a renamed binding.
-/

namespace Resugar

/-- The bindings that get another name. -/
structure Renaming where
  entries : Table Text := []

namespace Renaming

/-- The new name of a binding. -/
def get? (r : Renaming) (name : Text) : Option Text :=
  r.entries.get? name

/-- Whether a binding gets another name. -/
def has (r : Renaming) (name : Text) : Bool :=
  (r.get? name).isSome

/-- One more binding to rename, unless the name stays the same or the binding
    has a new name already. -/
def add (r : Renaming) (name replacement : Text) : Renaming :=
  if name = replacement ∨ r.has name then r else ⟨r.entries ++ [(name, replacement)]⟩

/-- Whether a name is that of a renamed binding, before or after. -/
def isBinding (r : Renaming) (name : Text) : Bool :=
  r.entries.any fun e => e.1 == name || e.2 == name

/-- What a name becomes. -/
def apply (r : Renaming) (name : Text) : Text :=
  (r.get? name).getD name

/-- `a.default` becomes `a` if `a` is a renamed binding. -/
def collapse? (r : Renaming) (n : Node) : Option Node :=
  if n.isMemberNamed "default" then
    n.receiver?.filter fun receiver => receiver.identifierName?.any r.isBinding
  else none

/-- What a node becomes when its own nodes are renamed already. -/
def rename? (r : Renaming) : Node → Option Node
  | .identifier name => some (.identifier (r.apply name))
  | n => r.collapse? n

/-- A tree with all bindings renamed. The root is kept, except that an
    identifier is renamed. -/
def sweep (r : Renaming) (root : Node) : Node :=
  if r.entries.isEmpty then root
  else match root with
    | .identifier name => .identifier (r.apply name)
    | n => n.replaceBelow fun _ => r.rename?

end Renaming

end Resugar
