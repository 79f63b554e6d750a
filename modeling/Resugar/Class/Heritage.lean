import Resugar.Class.Member
import Resugar.Printer.Print

/-!
# Superclasses

The superclass of a rebuilt class is the second argument of the call that begins
the factory's body. Inside the factory it goes by the name of a parameter, or by
the same code (`Heritage.isSuperRef`).
-/

namespace Resugar

/-- Whether two nodes print the same. -/
def Node.sameCode (a b : Node) : Except Fault Bool := do
  let a' ← a.print
  let b' ← b.print
  return a' == b'

/-- The superclass, as it stands outside and inside the factory. -/
structure Heritage where
  superClass : Option Node := none
  /-- The parameter that holds it in the factory. -/
  param : Option Text := none

namespace Heritage

/-- Whether a node refers to the superclass. -/
def isSuperRef (h : Heritage) (n : Node) : Except Fault Bool :=
  if h.param.any n.ungroup.isNamed then .ok true
  else match h.superClass with
    | none => .ok false
    | some superClass => n.ungroup.sameCode superClass

/-- The superclass that a statement registers for a constructor. -/
def registered? (ctorName : Text) : Node → Option Node
  | .exprStmt e =>
    match e.ungroup with
    | .call _ [target, superClass] _ =>
      if target.isNamed ctorName then some superClass.ungroup else none
    | _ => none
  | _ => none

/-- The superclass of a factory, and the statements before the constructor less
    the one that registers it. -/
def take (ctorName : Text) (values : Table Node) (before : List Node) : Heritage × List Node :=
  match before with
  | first :: rest =>
    match registered? ctorName first with
    | some superClass =>
      match superClass.identifierName? with
      | some name =>
        match values.get? name with
        | some value => (⟨some value, some name⟩, rest)
        | none => (⟨some superClass, none⟩, rest)
      | none => (⟨some superClass, none⟩, rest)
    | none => ({}, before)
  | [] => ({}, before)

end Heritage

end Resugar
