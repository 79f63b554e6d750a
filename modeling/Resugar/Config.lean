import Resugar.Table

/-!
# Configuration

What a pass rebuilds, and the names by which it recognises things.
-/

namespace Resugar

/-- The settings of a pass. -/
structure Config where
  /-- Variables whose import has a fixed name. -/
  importAliases : Table Text :=
    [("_invariant", "invariant"), ("_lodash", "_"), ("_moment", "moment"),
      ("superagent", "superagent")]
  /-- The functions that load a module. -/
  loaders : List Text := ["require"]
  /-- The receivers whose `createElement` makes no markup. -/
  nonFactoryHosts : List Text := ["document", "ownerDocument", "doc"]
  /-- The endings of the names of functions that make markup. -/
  markupSuffixes : List Text := ["jsx", "jsxs"]
  /-- The endings of the names of functions that make markup and take
      diagnostics. -/
  devMarkupSuffixes : List Text := ["jsxDEV"]
  markup : Bool := true
  classes : Bool := true
  imports : Bool := true
  exports : Bool := true
  /-- Write `true` for `!0`, and `false` for `!1`. -/
  booleans : Bool := true
  /-- Write `f(x)` for `(0, f)(x)`. -/
  indirectCalls : Bool := true
  /-- Give a function the name that its `displayName` says. -/
  displayNames : Bool := true

end Resugar
