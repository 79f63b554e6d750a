import Resugar.Config
import Resugar.Printer.Print
import Resugar.Text.Name

/-!
# Markup calls

A markup call makes an element: `React.createElement(tag, props, child, …)`,
`jsx(tag, props, key)` and its kin. The *runtime* says which arguments hold the
key and the children (`Runtime.arrange`), and the name of the called function
says which runtime it is (`Dialect.runtime?`). `Dialect.frame?` takes a markup
call apart; it refuses a call whose tag cannot be written as the name of an
element.
-/

namespace Resugar

/-- What the arguments of a markup call are, from the third on. -/
inductive Runtime where
  /-- The children. -/
  | classic
  /-- The key, then children. -/
  | automatic
  /-- Children, then the key and three diagnostics. -/
  | development
  /-- The key, then children; the function is part of the file. -/
  | custom
  deriving DecidableEq

/-- The key and the children among the arguments from the third on. -/
def Runtime.arrange : Runtime → List Node → Option Node × List Node
  | classic, rest => (none, rest)
  | development, rest => ((rest.drop (rest.length - 4)).head?, rest.take (rest.length - 4))
  | automatic, rest => (rest.head?, rest.drop 1)
  | custom, rest => (rest.head?, rest.drop 1)

/-! ## Runtimes of a file -/

/-- By what a file's markup calls are recognised. -/
structure Dialect where
  config : Config
  /-- The function of the file that makes markup, if it has one. -/
  customRuntime : Option Text

namespace Node

/-- What is called: `f` in `f`, in `(f)` and in `(0, f)`. -/
def called (callee : Node) : Node :=
  match callee.ungroup with
  | sequence expressions =>
    match expressions with
    | _ :: _ :: _ => (expressions.getLast?.getD callee).ungroup
    | _ => sequence expressions
  | n => n

/-- `a || (a = …)`, where the value of `a` is made with `"react.element"`. -/
def isElementTypeCache (n : Node) : Bool :=
  match n.ungroup with
  | logical operator (identifier name) right =>
    operator == Text.ofString "||" &&
      match right.ungroup with
      | assignment _ left value =>
        left.isNamed name && value.walk.any fun m => m.stringValue? ==
          some (Text.ofString "react.element")
      | _ => false
  | _ => false

/-- What names a function that makes markup on its own: one that looks up the
    type of elements once. -/
def markupMaker? : Node → Option Node
  | functionDecl (some id) _ body _ _ =>
    if body.walk.any (fun
      | exprStmt e => e.isElementTypeCache
      | _ => false) then some id else none
  | _ => none

/-- The first function among some statements that makes markup on its own. -/
def customRuntime? (body : List Node) : Except Fault (Option Text) :=
  (body.findSome? markupMaker?).mapM definedName

end Node

namespace Dialect

variable (d : Dialect)

/-- Whether `createElement` of this receiver makes no markup. -/
def isNonFactoryHost (receiver : Node) : Bool :=
  match receiver.ungroup with
  | .identifier name => d.config.nonFactoryHosts.contains name
  | n => n.memberName?.any d.config.nonFactoryHosts.contains

/-- The runtime of a function by the ending of its name. -/
def runtimeOfName? (name : Text) : Option Runtime :=
  if d.config.devMarkupSuffixes.any name.endsWith then some .development
  else if d.config.markupSuffixes.any name.endsWith then some .automatic
  else none

/-- The runtime of the calls with this callee, if they make markup. -/
def runtime? (callee : Node) : Option Runtime :=
  match callee.called with
  | .identifier name =>
    if name = Text.ofString "createElement" then some .classic
    else if d.customRuntime = some name then some .custom
    else d.runtimeOfName? name
  | n =>
    match n.memberName?, n.receiver? with
    | some name, some receiver =>
      if name = Text.ofString "createElement" then
        if d.isNonFactoryHost receiver then none else some .classic
      else d.runtimeOfName? name
    | _, _ => none

/-- Whether a node is a markup call. -/
def isMarkupCall : Node → Bool
  | .call callee _ _ => (d.runtime? callee).isSome
  | _ => false

end Dialect

/-! ## Tags -/

namespace Text

/-- The marks around a string. -/
def isQuote (c : CodePoint) : Bool :=
  c == '"' || c == '\''

/-- A text less a quote at its end. A line feed after the quote stays. -/
def dropFinalQuote (t : Text) : Text :=
  match t.reverse with
  | c :: rest =>
    if isQuote c then rest.reverse
    else match rest with
      | q :: rest' => if c == '\n' && isQuote q then (c :: rest').reverse else t
      | [] => t
  | [] => t

/-- A text less the quotes around it. -/
def unquote (t : Text) : Text :=
  match t with
  | c :: rest => dropFinalQuote (if isQuote c then rest else t)
  | [] => []

/-- Whether a name is that of a built-in element: it begins with a lower-case
    letter and holds no dot. -/
def isIntrinsicTag (t : Text) : Bool :=
  t.startsLower && !t.contains (CodePoint.ofChar '.')

end Text

namespace Node

/-- The name of the element with this tag, if it has one. Only a string is the
    name of a built-in element. -/
def tagName? (tag : Node) : Except Fault (Option Text) := do
  let text := (← tag.ungroup.print).unquote
  return if text.isTagName && tag.ungroup.isString == text.isIntrinsicTag then some text else none

/-- Tags that are computed by a call or an operator. -/
def isComputedTag (tag : Node) : Bool :=
  match tag.ungroup with
  | call .. => true
  | binary .. => true
  | _ => false

end Node

/-! ## Frames -/

/-- A markup call, taken apart. -/
structure Frame where
  name : Text
  props : Option Node
  key : Option Node
  children : List Node

/-- The parts of a markup call; `none` if the call is left as it is. -/
def Dialect.frame? (d : Dialect) (callee : Node) (arguments : List Node) :
    Except Fault (Option Frame) :=
  match d.runtime? callee, arguments with
  | some runtime, tag :: rest =>
    if tag.isComputedTag then .ok none
    else match tag.tagName? with
      | .error e => .error e
      | .ok none => .ok none
      | .ok (some name) =>
        .ok (some ⟨name, rest.head?, (runtime.arrange rest.tail).1, (runtime.arrange rest.tail).2⟩)
  | _, _ => .ok none

/-- The children are some of the arguments. -/
theorem Runtime.mem_of_mem_arrange {r : Runtime} {rest : List Node} {c : Node}
    (h : c ∈ (r.arrange rest).2) : c ∈ rest := by
  cases r
  · exact h
  · exact List.mem_of_mem_drop h
  · exact List.mem_of_mem_take h
  · exact List.mem_of_mem_drop h

/-- The children and the props of a frame are arguments of the call. -/
theorem Dialect.mem_of_frame? {d : Dialect} {callee : Node} {arguments : List Node} {f : Frame}
    (h : d.frame? callee arguments = .ok (some f)) :
    (∀ c ∈ f.children, c ∈ arguments) ∧ ∀ p ∈ f.props, p ∈ arguments := by
  unfold Dialect.frame? at h
  split at h
  · rename_i runtime tag rest _
    split at h
    · cases h
    · split at h
      · cases h
      · cases h
      · cases h
        constructor
        · intro c hc
          exact List.mem_cons_of_mem _ (List.mem_of_mem_tail (Runtime.mem_of_mem_arrange hc))
        · intro p hp
          exact List.mem_cons_of_mem _ (List.mem_of_mem_head? hp)
  · cases h

end Resugar
