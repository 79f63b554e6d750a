import Resugar.Markup.Props
import Resugar.Markup.Call

/-!
# Elements

`Dialect.rebuild` puts elements in place of markup calls: of the expression
itself, and of the branches of conditional and logical expressions. In an
element, the same is done with the children and with the values of the
attributes. `Node.asChildren` gives the children that an expression stands for.
-/

namespace Resugar

/-! ## Children -/

/-- The code points that text between tags cannot hold as they are. -/
def CodePoint.isUnsafe (c : CodePoint) : Bool :=
  c.val == 0x7B || c.val == 0x7D || c == '<' || c == '>' || c == '&' || c == '\n' || c == '\r'

/-- Whether a text can stand between tags. White space at its ends is lost. -/
def Text.isMarkupText (t : Text) : Bool :=
  !t.isEmpty && !t.any CodePoint.isUnsafe && !t.head?.any CodePoint.isSpace &&
    !t.getLast?.any CodePoint.isSpace

namespace Node

/-- The children that an expression stands for. -/
def asChildren (n : Node) : List Node :=
  match n with
  | element .. => [n]
  | container .. => [n]
  | _ =>
    if n.isVoid then []
    else match n.ungroup with
      | literal (.string t) spelling =>
        if t.isMarkupText then [markupText t] else [container (literal (.string t) spelling)]
      | _ => [container n]

/-- An expression in the place of an attribute's value: a string that can be
    printed loses its spelling. -/
def attributeExpression (n : Node) : Node :=
  match n.attributeValue with
  | literal v spelling => literal v spelling
  | _ => n

end Node

namespace Attribute

/-- The attribute that holds children. -/
def isChildren : Attribute → Bool
  | named name _ => name == Text.ofString "children"
  | spread _ => false

/-- The children in an attribute: the elements of an array, or one node. -/
def childExpressions : Attribute → List Node
  | named _ (.array elements) => elements.filterMap id
  | named _ value => [value.attributeExpression]
  | spread _ => []

/-- The expressions for the children that attributes hold. -/
def foldedChildren (attrs : List Attribute) : List Node :=
  (attrs.filter isChildren).flatMap childExpressions

end Attribute

namespace Frame

variable (f : Frame)

/-- The attributes from the props. -/
def attributes : Except Fault (List Attribute) :=
  match f.props with
  | none => .ok []
  | some props => props.attributes

/-- The attribute for the key. -/
def keyAttribute : List Node :=
  match f.key with
  | none => []
  | some key => if key.isNullish then [] else [(Attribute.named "key" key).toNode]

/-- The element. Arguments that are children take the place of children among
    the attributes. -/
def toElement (children folded : List Node) (attrs : List Attribute) : Node :=
  let children := (if f.children.isEmpty then folded else children).flatMap Node.asChildren
  .element f.name (f.keyAttribute ++ attrs.map Attribute.toNode) children children.isEmpty

end Frame

/-! ## Sizes -/

namespace Node

theorem size_attributeExpression_le (n : Node) : n.attributeExpression.size ≤ n.size := by
  unfold attributeExpression
  split
  · rw [size_eq n]
    exact Nat.le_add_right 1 _
  · exact Nat.le_refl _

end Node

/-- The value of an attribute is smaller than the call whose props give it. -/
theorem Frame.size_lt_of_mem_attributes {f : Frame} {attrs : List Attribute} {arguments : List Node}
    {callee : Node} {o : Bool} (hp : ∀ p ∈ f.props, p ∈ arguments) (h : f.attributes = .ok attrs)
    {name : Text} {value : Node} (hm : .named name value ∈ attrs) :
    value.size < (Node.call callee arguments o).size := by
  unfold Frame.attributes at h
  split at h
  · cases h
    cases hm
  · rename_i props hprops
    exact Nat.lt_trans (Node.size_lt_of_mem_attributes h hm)
      (Node.size_lt_argument (hp props hprops))

/-- An expression for a child is part of the value of an attribute. -/
theorem Attribute.size_le_of_mem_foldedChildren {attrs : List Attribute} {c : Node}
    (h : c ∈ Attribute.foldedChildren attrs) :
    ∃ name value, .named name value ∈ attrs ∧ c.size ≤ value.size := by
  obtain ⟨a, ha, hc⟩ := List.mem_flatMap.1 h
  have ha := (List.mem_filter.1 ha).1
  unfold Attribute.childExpressions at hc
  split at hc
  · rename_i name elements _
    exact ⟨name, .array elements, ha, Nat.le_of_lt (Node.size_lt_of_mem_array hc)⟩
  · rename_i name value _ _
    rw [List.mem_singleton.1 hc]
    exact ⟨name, value, ha, Node.size_attributeExpression_le value⟩
  · cases hc

/-! ## Rebuilding -/

namespace Dialect

/-- An expression with elements in place of markup calls. -/
def rebuild (d : Dialect) (n : Node) : Except Fault Node :=
  match n with
  | .parenthesized e => do
    let e' ← rebuild d e
    return if e.ungroup.isCall && e'.isElement then e' else .parenthesized e'
  | .conditional test consequent alternate => do
    let consequent' ← rebuild d consequent
    let alternate' ← rebuild d alternate
    return .conditional test consequent' alternate'
  | .logical operator left right => do
    let left' ← rebuild d left
    let right' ← rebuild d right
    return .logical operator left' right'
  | .call callee arguments o =>
    match _hf : d.frame? callee arguments with
    | .error e => .error e
    | .ok none => .ok (.call callee arguments o)
    | .ok (some f) =>
      match _ha : f.attributes with
      | .error e => .error e
      | .ok attrs => do
        let children ← f.children.attach.mapM fun c => rebuild d c.1
        let folded ← (Attribute.foldedChildren attrs).attach.mapM fun c => rebuild d c.1
        let kept ← (attrs.filter (!·.isChildren)).attach.mapM fun a => match _ha' : a.1 with
          | .named name value => return .named name (← rebuild d value)
          | .spread argument => return .spread argument
        return f.toElement children folded kept
  | n => .ok n
termination_by n.size
decreasing_by
  · exact Node.size_lt_parenthesized e
  · exact Node.size_lt_conditional_consequent ..
  · exact Node.size_lt_conditional_alternate ..
  · exact Node.size_lt_logical_left ..
  · exact Node.size_lt_logical_right ..
  · exact Node.size_lt_argument ((d.mem_of_frame? _hf).1 c.1 c.2)
  · obtain ⟨name, value, hv, hle⟩ := Attribute.size_le_of_mem_foldedChildren c.2
    exact Nat.lt_of_le_of_lt hle (Frame.size_lt_of_mem_attributes (d.mem_of_frame? _hf).2 _ha hv)
  · have hm := (List.mem_filter.1 a.2).1
    rw [_ha'] at hm
    exact Frame.size_lt_of_mem_attributes (d.mem_of_frame? _hf).2 _ha hm

/-- The element that a markup call makes, if the call is not left as it is. -/
def element? (d : Dialect) (n : Node) : Except Fault (Option Node) := do
  let n' ← d.rebuild n
  return if n.isCall && n'.isElement then some n' else none

end Dialect

end Resugar
