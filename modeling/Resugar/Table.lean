import Resugar.Text.Basic

/-!
# Tables

A table gives values to names. It keeps the order in which the names came, and a
name that comes again keeps its place and takes the new value.
-/

namespace Resugar

/-- Values by name, in the order in which the names came. -/
abbrev Table (α : Type) := List (Text × α)

namespace Table

variable {α : Type}

/-- The value of a name. -/
def get? (t : Table α) (name : Text) : Option α :=
  List.lookup name t

/-- Whether a name has a value. -/
def has (t : Table α) (name : Text) : Bool :=
  (t.get? name).isSome

/-- The names that have a value. -/
def keys (t : Table α) : List Text :=
  t.map (·.1)

/-- The table with a value for a name. -/
def insert : Table α → Text → α → Table α
  | [], name, value => [(name, value)]
  | (k, v) :: t, name, value => if k = name then (k, value) :: t else (k, v) :: insert t name value

/-- The table in the order of its names. -/
def sorted (t : Table α) : Table α :=
  t.mergeSort fun a b => a.1.le b.1

end Table

end Resugar
