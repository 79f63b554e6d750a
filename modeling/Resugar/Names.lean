import Resugar.Tree.Walk

/-!
# Used names

The names that a program uses, and new ones beside them. A name that is taken
gets the first number from 2 up that makes it free (`Names.fresh`).
-/

namespace Resugar

/-- The names in use. -/
structure Names where
  used : List Text

namespace Names

/-- The names of the identifiers of a program. -/
def ofProgram (program : Node) : Names :=
  ⟨program.names.eraseDups⟩

/-- Whether a name is in use. -/
def has (ns : Names) (name : Text) : Bool :=
  ns.used.contains name

/-- One more name in use. -/
def insert (ns : Names) (name : Text) : Names :=
  if ns.has name then ns else ⟨ns.used ++ [name]⟩

/-- A name with a number at its end. -/
def numbered (base : Text) (i : Nat) : Text :=
  base ++ Text.ofNat i

/-- The first number from `i` up, among `fuel` many, that makes a name free. -/
def firstFree (ns : Names) (base : Text) : (fuel i : Nat) → Nat
  | 0, i => i
  | fuel + 1, i => if ns.has (numbered base i) then firstFree ns base fuel (i + 1) else i

/-- A name that is not in use: the base itself, or the base with the least
    number from 2 up. -/
def fresh (ns : Names) (base : Text) : Text :=
  if ns.has base then numbered base (ns.firstFree base ns.used.length 2) else base

/-- A name for a binding that was called `current`, if it had a name. It may
    keep that; any other name has to be free. -/
def allocate (ns : Names) (base : Text) (current : Option Text) : Text × Names :=
  let name := if current = some base then base else ns.fresh base
  (name, ns.insert name)

/-- Names for some bindings, one after the other, each with the base of its name
    and the name that it had. -/
def allocateAll (ns : Names) : List (Text × Option Text) → List Text × Names
  | [] => ([], ns)
  | (base, current) :: rest =>
    let (name, ns) := ns.allocate base current
    let (names, ns) := allocateAll ns rest
    (name :: names, ns)

end Names

end Resugar
