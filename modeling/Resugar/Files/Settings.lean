import Resugar.Text.Uppercase

/-!
# Settings

What can be set in the environment: how much is logged, and the suffix of the
results. An empty value counts as none.
-/

namespace Resugar

/-- The settings of the environment. -/
structure Settings where
  logLevel : Option Text := none
  outputSuffix : Option Text := none

namespace Settings

/-- A value that is set and not empty. -/
def value (default : Text) : Option Text → Text
  | some (c :: t) => c :: t
  | _ => default

/-- A suffix with its dot. -/
def dotted (suffix : Text) : Text :=
  if suffix.startsWith "." then suffix else Text.ofString "." ++ suffix

/-- The level of the log, in capitals. -/
def level (s : Settings) : Text :=
  (value "WARNING" s.logLevel).upper

/-- The suffix of the results. -/
def suffix (s : Settings) : Text :=
  dotted (value ".jsx" s.outputSuffix)

end Settings

end Resugar
