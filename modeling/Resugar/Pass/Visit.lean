import Resugar.Class.Rebuild
import Resugar.Markup.Rebuild
import Resugar.Pass.State

/-!
# The visit of a program

A pass visits every node once, after the nodes below it, and rebuilds it on the
spot (`Surroundings.settle`). What stands there afterwards is not visited again.

A declaration is visited as a whole (`visitDeclarators`): an import takes a
declarator away, and with the last one the declaration; a class puts statements
in the place of the declaration, with the declarators before and after it in
declarations of their own. Where only one statement can stand, what would need
more or none is left as it is.

Some decisions depend on how often the whole program refers to a name, so every
visit is told how often the rest of the program does (`Refs`).
-/

namespace Resugar

/-! ## References from elsewhere -/

/-- How often some part of the program refers to a name. -/
abbrev Refs := Text → Nat

namespace Refs

/-- The references from some nodes. -/
def ofNodes (ns : List Node) : Refs :=
  fun name => Node.total (ns.map (·.countReferences name))

/-- The references from two parts. -/
def plus (a b : Refs) : Refs :=
  fun name => a name + b name

end Refs

/-! ## Rebuilding a node -/

namespace Node

/-- `f(x)` for `(0, f)(x)`. -/
def unwrapIndirectCallee (callee : Node) : Node :=
  match callee.ungroup with
  | sequence [first, second] => if first.ungroup.isNumber then second else callee
  | _ => callee

/-- `true` for `!0`, and `false` for `!1`. -/
def restoredBoolean? (operator : Text) (argument : Node) : Option Node :=
  if operator = Text.ofString "!" then
    match argument.ungroup with
    | literal (.number n) _ =>
      if n.isZero then some (literal (.bool true) (some "true"))
      else if n.isOne then some (literal (.bool false) (some "false"))
      else none
    | _ => none
  else none

end Node

namespace Surroundings

variable (e : Surroundings)

/-- Whether an element can take the place of a markup call in a field of a
    parent; `done` are the fields before it. -/
def acceptsMarkup (parent : Node) (done : List (Slot Node)) (field : String) : Bool :=
  match parent with
  | .returnStmt .. => true
  | .declarator .. => true
  | .assignment .. => true
  | .conditional .. => true
  | .logical .. => true
  | .array .. => true
  | .arrow .. => true
  | .parenthesized .. => true
  | .container .. => true
  | .entry .. => field == "value"
  | .newExpr .. => field == "arguments"
  | .call .. =>
    field == "arguments" && !(done.head?.bind Slot.child?).any fun callee =>
      (e.dialect.runtime? callee).isSome
  | _ => false

/-- The element for a markup call, if there is one and it can stand there. -/
def markupAt? (accepts : Bool) (n : Node) : PassM (Option Node) := do
  if e.config.markup && accepts && e.dialect.isMarkupCall n then
    match ← (e.dialect.element? n : Except Fault (Option Node)) with
    | some element =>
      PassM.noteRebuilt n
      PassM.count fun t => { t with markup := t.markup + 1 }
      return some element
    | none => return none
  else return none

/-- What stands for a node once the nodes below it are settled. -/
def settle (accepts : Bool) (n : Node) : PassM Node := do
  match n with
  | .identifier name => return .identifier ((← get).renames.apply name)
  | .member .. => return ((← get).renames.collapse? n).getD n
  | .call callee arguments o =>
    match ← e.markupAt? accepts n with
    | some element => return element
    | none =>
      return if e.config.indirectCalls then .call callee.unwrapIndirectCallee arguments o else n
  | .unary operator argument =>
    return if e.config.booleans then (Node.restoredBoolean? operator argument).getD n else n
  | _ => return n

/-! ## Declarators -/

/-- The name of the class that a factory makes. A name that is used elsewhere is
    left to the others. -/
def nameClass (f : Factory) (outside : Refs) : PassM Text :=
  if f.encoding = .newWrapped ∧ f.className ≠ f.binding ∧ 0 < outside f.className then
    PassM.allocate f.className none
  else return f.className

/-- The statements for a declarator that holds a class. `inList` says whether
    any number of statements can stand there, and `alone` whether it is the only
    declarator. -/
def classAt? (kind : VariableKind) (inList alone : Bool) (outside : Refs) (d : Node) :
    PassM (Option (List Node)) := do
  if e.config.classes then
    match ← (Factory.ofDeclarator? d : Except Fault (Option Factory)) with
    | none => return none
    | some f =>
      let name ← nameClass f fun name =>
        outside name + d.countReferences name - f.function.countReferences name
      match (← (f.rebuild name : Except Fault (Option RebuiltClass))).bind
        (f.toStatements kind name) with
      | none => return none
      | some statements =>
        if inList || (alone && statements.length == 1) then
          PassM.noteSighting ⟨d, inList, alone, .rebuilt f name statements⟩
          PassM.count fun t => { t with classes := t.classes + 1 }
          return some statements
        else return none
  else return none

/-- Whether a declarator becomes an import. -/
def takeImport (inList alone : Bool) (d : Node) : PassM Bool := do
  match d with
  | .declarator (.identifier binding) (some init) =>
    match load? e.config.loaders e.helpers init with
    | none => return false
    | some (source, kind) =>
      if e.config.imports && (inList || !alone) then
        let name ← PassM.importBinding e.config binding source kind
        PassM.rename binding name
        PassM.noteSighting ⟨d, inList, alone, .loaded binding name⟩
        PassM.count fun t => { t with imports := t.imports + 1 }
        return true
      else return false
  | _ => return false

end Surroundings

/-! ## Visiting -/

/-- The visit of a node: `accepts` says whether an element can stand there, and
    the references are those from the rest of the program. -/
structure Visit where
  /-- Where one node stands. -/
  single : (accepts : Bool) → Refs → PassM Node
  /-- In a list of nodes. -/
  spliced : (accepts : Bool) → Refs → PassM (List Node)

namespace Visit

/-- The references from nodes that are still to be visited. -/
def refs (ns : List (Node × Visit)) : Refs :=
  Refs.ofNodes (ns.map (·.1))

/-- The visit of the nodes in a list, in order. -/
def items (accepts : Bool) : Refs → List (Option (Node × Visit)) → PassM (List (Option Node))
  | _, [] => return []
  | outside, none :: rest => return none :: (← items accepts outside rest)
  | outside, some (_, v) :: rest => do
    let ns ← v.spliced accepts (outside.plus (refs (rest.filterMap id)))
    return ns.map some ++ (← items accepts (outside.plus (.ofNodes ns)) rest)

/-- The visit of the contents of a field. -/
def slot (accepts : Bool) (outside : Refs) : Slot (Node × Visit) → PassM (Slot Node)
  | .single none => return .single none
  | .single (some (_, v)) => return .single (some (← v.single accepts outside))
  | .list ns => return .list (← items accepts outside ns)

/-- The visit of the fields of a node, in order. -/
def fields (e : Surroundings) (n : Node) :
    Refs → (done : List (Slot Node)) → List (Field (Node × Visit)) → PassM (List (Slot Node))
  | _, done, [] => return done
  | outside, done, field :: rest => do
    if field.walked then
      let s ← slot (e.acceptsMarkup n done field.name)
          (outside.plus (refs (rest.flatMap Field.walkedNodes))) field.slot
      fields e n (outside.plus (.ofNodes s.nodes)) (done ++ [s]) rest
    else fields e n outside (done ++ [field.slot.map (·.1)]) rest

/-- The visit of declarators beside a class. They stay, but are still looked at
    as classes, which can fail. -/
def others (e : Surroundings) : Refs → List (Node × Visit) → PassM (List Node)
  | _, [] => return []
  | outside, (_, v) :: rest => do
    let d ← v.single false (outside.plus (refs rest))
    let _ ← (Factory.ofDeclarator? d : Except Fault (Option Factory))
    PassM.noteSighting ⟨d, true, false, .skipped⟩
    return d :: (← others e (outside.plus (.ofNodes [d])) rest)

/-- The declaration of some declarators, unless there are none. -/
def declaration (kind : VariableKind) (declarators : List Node) : List Node :=
  if declarators.isEmpty then [] else [.varDecl kind declarators]

/-- The visit of declarators, in order: the statements in place of their
    declaration. `done` are those that stay. A declaration goes when its last
    declarator becomes an import. -/
def declarators (e : Surroundings) (kind : VariableKind) (inList : Bool) (outside : Refs) :
    (done : List Node) → List (Node × Visit) → PassM (List Node)
  | done, [] => return declaration kind done
  | done, (n, v) :: rest => do
    let elsewhere := (outside.plus (.ofNodes done)).plus (refs rest)
    let alone := done.isEmpty && rest.isEmpty
    if n.isDeclarator then
      let d ← v.single false elsewhere
      match ← e.classAt? kind inList alone elsewhere d with
      | some statements =>
        let before := declaration kind done ++ statements
        let after ← others e (outside.plus (.ofNodes before)) rest
        return before ++ declaration kind after
      | none =>
        if ← e.takeImport inList alone d then declarators e kind inList outside done rest
        else
          PassM.noteSighting ⟨d, inList, alone, .kept⟩
          declarators e kind inList outside (done ++ [d]) rest
    else
      let ns ← v.spliced false elsewhere
      if alone && ns.isEmpty then return [.varDecl kind []]
      else declarators e kind inList outside (done ++ ns) rest

/-- The visit of a declaration. -/
def varDecl (e : Surroundings) (kind : VariableKind) (inList : Bool) (outside : Refs)
    (ds : List (Node × Visit)) : PassM (List Node) :=
  if ds.isEmpty then return [.varDecl kind []] else declarators e kind inList outside [] ds

/-- The visit of a node, from the visits of the nodes in its fields. -/
def ofFields (e : Surroundings) (n : Node) (fs : List (Field (Node × Visit))) : Visit :=
  match n with
  | .varDecl kind _ =>
    let ds := fs.flatMap Field.walkedNodes
    { single := fun _ outside => do
        match ← varDecl e kind false outside ds with
        | [s] => return s
        | ss => return .block ss
      spliced := fun _ outside => varDecl e kind true outside ds }
  | _ =>
    let visit (accepts : Bool) (outside : Refs) : PassM Node := do
      e.settle accepts (n.withSlots (← fields e n outside [] fs))
    { single := visit
      spliced := fun accepts outside => return [← visit accepts outside] }

/-- The visit of a tree. -/
def ofNode (e : Surroundings) : Node → Visit :=
  Node.fold (ofFields e)

end Visit

end Resugar
