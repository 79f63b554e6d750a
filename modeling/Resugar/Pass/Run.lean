import Resugar.Concrete.Statement
import Resugar.Module.Export
import Resugar.Pass.Visit

/-!
# A pass over a program

`reconstruct` runs one pass. Functions get the names that their `displayName`
says; the statements are visited in order (`Resugar.Pass.Visit`), and export
assignments become export declarations as they are met; then the renamed
bindings are renamed everywhere, what is no longer needed is removed, and the
imports are added after the directives.
-/

namespace Resugar

namespace Node

/-- The name of a function declaration. -/
def functionName? : Node → Option Text
  | functionDecl (some id) _ _ _ _ => id.name?
  | _ => none

/-- Whether a statement is a function declaration with a name among some. -/
def definesOneOf (names : List Text) : Node → Except Fault Bool
  | functionDecl (some id) _ _ _ _ => do return names.contains (← id.definedName)
  | _ => return false

/-- The variable and the name in `a.displayName = "Name"`. -/
def displayName? : Node → Option (Text × Text)
  | exprStmt e =>
    match e.ungroup with
    | assignment operator (member (identifier name) property computed _)
      (literal (.string pretty) _) =>
      if operator = Text.ofString "=" ∧ property.propertyName? computed =
        some (Text.ofString "displayName") then
        some (name, pretty)
      else none
    | _ => none
  | _ => none

end Node

namespace Pass

/-- A function gets the name that its `displayName` says, if that is free. -/
def applyDisplayName (functions : List Text) (s : PassState) (name pretty : Text) : PassState :=
  if functions.contains name && name != pretty && pretty.isIdentifier && !s.names.has pretty then
    { s with names := s.names.insert pretty, renames := s.renames.add name pretty }
  else s

/-- The functions get the names that their `displayName` says. -/
def applyDisplayNames (body : List Node) (s : PassState) : PassState :=
  (body.filterMap Node.displayName?).foldl
    (fun s e => applyDisplayName (body.filterMap Node.functionName?) s e.1 e.2) s

/-! ## Exports -/

/-- Whether an exported name can be declared in place of a binding. -/
def canDeclare (names : Names) (key binding : Text) : Bool :=
  key == Node.defaultKey || (key.isIdentifier && (key == binding || !names.has key))

/-- Whether a binding is defined before or after an export of it; and if a
    variable is defined before, its value, and the statements before without it.
    -/
def exported? (binding : Text) (before after : List Node) :
    Except Fault (Option (Option (Node × List Node))) := do
  match ← Node.findDefinition? binding before with
  | some (ss, d, ts) => return some ((← d.value?).map (·, ss ++ d.remains ++ ts))
  | none =>
    match ← Node.findDefinition? binding after with
    | some (_, d, _) =>
      let _ ← d.value?
      return some none
    | none => return none

/-- The export declaration for a statement among others, and the statements
    before it. A variable that is defined before, and that nothing else refers
    to, is exported with its value, and no longer defined. -/
def exportAt? (e : Surroundings) (done : List Node) (s : Node) (rest : List Node) :
    PassM (Option (List Node × Node)) := do
  match if e.config.exports then s.exportAssignment? else none with
  | none => return none
  | some (key, binding) =>
    match ← exported? binding done (s :: rest) with
    | none => return none
    | some movable =>
      PassM.noteExport key
      PassM.count fun t => { t with exports := t.exports + 1 }
      let state ← get
      match movable with
      | some (init, remains) =>
        if Refs.ofNodes (done ++ s :: rest) binding ≤ 2 && canDeclare state.names key binding then
          PassM.noteExtraction key binding
          let swept := state.renames.sweep init
          let value := (state.renames.rename? swept).getD swept
          return some (remains, Node.exportValue key value)
        else return some (done, Node.exportBinding key binding)
      | none => return some (done, Node.exportBinding key binding)

/-- The visit of one statement: the statements up to there, once visited. -/
def step (e : Surroundings) (done : List Node) (v : Visit)
    (rest : List Node) : PassM (List Node) := do
  match ← v.spliced false ((Refs.ofNodes done).plus (Refs.ofNodes rest)) with
  | [.exprStmt expression] =>
    match ← exportAt? e done (.exprStmt expression) rest with
    | some (done, declaration) => return done ++ [declaration]
    | none => return done ++ [.exprStmt expression]
  | ss => return done ++ ss

/-- The visit of the statements of a program, in order. -/
def statements (e : Surroundings) : (done rest : List Node) → PassM (List Node)
  | done, [] => return done
  | done, s :: rest => do statements e (← step e done (Visit.ofNode e s) rest) rest

/-! ## The end of a pass -/

/-- The functions that may no longer be needed, if they have a name. -/
def idleHelpers (e : Surroundings) (t : Tally) : List Text :=
  let loading := if 0 < t.imports then
      (helperOf? e.helpers .default).toList ++ (helperOf? e.helpers .namespaced).toList
    else []
  let making := if 0 < t.markup then e.customRuntime.toList else []
  (loading ++ making).filter (!·.isEmpty)

/-- The helpers that nothing but their definition refers to any more. -/
def unusedHelpers (names : List Text) (body : List Node) : List Text :=
  names.filter fun name => Refs.ofNodes body name == 1

/-- Statements less the helpers that nothing refers to any more. -/
def dropHelpers (names : List Text) (body : List Node) : Except Fault (List Node) :=
  if names.isEmpty then .ok body
  else body.filterM fun s => return !(← s.definesOneOf (unusedHelpers names body))

/-- Imports less those whose declarations print like an earlier one. -/
def distinct : (seen : List Text) → List Import → Except Fault (List Import)
  | _, [] => .ok []
  | seen, i :: imports => do
    let text ← i.declaration.print
    if seen.contains text then distinct seen imports
    else return i :: (← distinct (text :: seen) imports)

/-- Statements with the declarations of imports after the directives. -/
def splice (added : List Import) (body : List Node) : List Node :=
  body.takeWhile Node.isDirective ++ added.map Import.declaration ++ body.dropWhile Node.isDirective

/-- Statements with all bindings renamed, less the leftovers of exports. -/
def renamed (e : Surroundings) (s : PassState) (body : List Node) : List Node :=
  let body := match s.renames.sweep (.program body) with
    | .program body => body
    | _ => body
  if e.config.exports && !s.exported.isEmpty
    then body.filter (!·.isExportLeftover s.exported) else body

/-- What a pass starts with. -/
def start (e : Surroundings) (program : Node) (body : List Node) : PassState :=
  let s : PassState := { names := Names.ofProgram program }
  if e.config.displayNames then applyDisplayNames body s else s

end Pass

/-- What a pass leaves. -/
structure Outcome where
  program : Node
  surroundings : Surroundings
  state : PassState
  /-- The statements as the visit leaves them. -/
  walked : List Node
  /-- The statements that remain of these, renamed. -/
  kept : List Node
  added : List Import

/-- What a pass knows of a program at first. Only programs have exports. -/
def survey (config : Config) (program : Node) : Except Fault Surroundings := do
  let body ← program.statements
  let helpers ← interopHelpers body
  let customRuntime ← if config.markup then Node.customRuntime? body else pure none
  return ⟨{ config with exports := config.exports && program.isProgram }, helpers, customRuntime⟩

/-- One pass over a program, with what is known of it from the start. -/
def reconstructWith (e : Surroundings) (program : Node) : Except Fault Outcome := do
  let body ← program.statements
  let (walked, state) ← (Pass.statements e [] body).run (Pass.start e program body)
  let kept ← Pass.dropHelpers (Pass.idleHelpers e state.tally) (Pass.renamed e state walked)
  let added ← Pass.distinct [] state.imported
  return ⟨program.withStatements (Pass.splice added kept), e, state, walked, kept, added⟩

/-- One pass over a program. -/
def reconstruct (config : Config) (program : Node) : Except Fault Outcome := do
  reconstructWith (← survey config program) program

/-- The text of a program after one pass, with a line feed at its end. -/
def reconstructSource (config : Config) (source : Source)
    (tree : Concrete) : Except Fault Text := do
  let outcome ← reconstruct config (← tree.parse source)
  return (← outcome.program.print) ++ Text.ofString "\n"

end Resugar
