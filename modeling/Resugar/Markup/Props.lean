import Resugar.Fault
import Resugar.Text.Name
import Resugar.Tree.Shape
import Resugar.Tree.Size

/-!
# Props

The second argument of a markup call holds the *props* of the element: an
object, `null`, a variable, or a call that merges several of these.
`Node.attributes` gives the attributes that mean the same, in the same order. An
entry that cannot be written as an attribute becomes a spread of an object with
this one entry; an expression that cannot be props at all is a fault.

* `Node.size_lt_of_mem_attributes`: the values of named attributes are parts of
  the props.
-/

namespace Resugar

/-- An attribute of an element. -/
inductive Attribute where
  | named (name : Text) (value : Node)
  | spread (argument : Node)

namespace Node

/-- The value of an attribute: a printable string, or else in braces. -/
def attributeValue (value : Node) : Node :=
  match value.stringValue? with
  | some text =>
    if text.all CodePoint.isPrintable then literal (.string text) none else container value
  | none => container value

/-- Whether a call merges several objects into one. -/
def isComposedSpread : Node → Bool
  | call callee arguments _ =>
    2 ≤ arguments.length && !arguments.any isSpread &&
      match callee.ungroup with
      | identifier .. => true
      | sequence .. => true
      | member .. => true
      | _ => false
  | _ => false

/-- The key of an entry, if it is a name or a string. -/
def keyName? : Node → Option Text
  | identifier name => some name
  | literal (.string name) _ => some name
  | _ => none

/-- The attribute name of an entry that can be written as an attribute. -/
def attributeName? : Node → Option Text
  | entry key _ .init false _ false => key.keyName?.filter Text.isAttributeName
  | _ => none

/-- An entry of an object as an attribute. -/
def entryAttribute (n : Node) : Except Fault Attribute :=
  match n with
  | spread argument => .ok (.spread argument)
  | entry _ value _ _ _ _ =>
    match n.attributeName? with
    | some name => .ok (.named name value)
    | none => .ok (.spread (object [n]))
  | _ => .error (.unsupportedProps n.kindName)

/-- The attributes that a part of a merge gives, without grouping. -/
def barePartAttributes : Node → Except Fault (List Attribute)
  | literal .null _ => .ok []
  | object entries => entries.mapM entryAttribute
  | n => .ok (if n.isNamed "undefined" then [] else [.spread n])

/-- The attributes that a part of a merge gives. -/
def partAttributes (n : Node) : Except Fault (List Attribute) :=
  n.ungroup.barePartAttributes

/-- The attributes that an argument of a merge gives. A variable is taken as it
    is, `undefined` too. -/
def argumentAttributes : Node → Except Fault (List Attribute)
  | identifier name => .ok [.spread (identifier name)]
  | n => n.partAttributes

/-- The attributes that props give, without the grouping around them. -/
def bareAttributes : Node → Except Fault (List Attribute)
  | literal .null _ => .ok []
  | object entries => entries.mapM entryAttribute
  | call callee arguments o =>
    if isComposedSpread (call callee arguments o)
      then return (← arguments.mapM argumentAttributes).flatten
    else .ok [.spread (call callee arguments o)]
  | identifier name =>
    .ok (if name = Text.ofString "undefined" then [] else [.spread (identifier name)])
  | conditional test consequent alternate => .ok [.spread (conditional test consequent alternate)]
  | logical operator left right => .ok [.spread (logical operator left right)]
  | member receiver property computed o => .ok [.spread (member receiver property computed o)]
  | n => .error (.unsupportedProps n.kindName)

/-- The attributes that props give. -/
def attributes (n : Node) : Except Fault (List Attribute) :=
  n.ungroup.bareAttributes

end Node

/-- An attribute in a tag. -/
def Attribute.toNode : Attribute → Node
  | named name value => .namedAttribute name (some value.attributeValue)
  | spread argument => .spreadAttribute argument

/-! ## The values are parts of the props -/

namespace Node

variable {value n : Node} {name : Text} {attrs : List Attribute}

/-- The value of an attribute is smaller than the entry that it comes from. -/
theorem size_lt_of_entryAttribute {e : Node} (h : e.entryAttribute = .ok (.named name value)) :
    value.size < e.size := by
  cases e <;> try cases h
  case entry key v kind computed shorthand isMethod =>
    change (match attributeName? (entry key v kind computed shorthand isMethod) with
      | some name => Except.ok (Attribute.named name v)
      | none => .ok (.spread (object [entry key v kind computed shorthand isMethod]))) = _ at h
    cases hn : attributeName? (entry key v kind computed shorthand isMethod) with
    | none => rw [hn] at h; cases h
    | some n =>
      rw [hn] at h
      cases h
      exact size_lt_entry_value ..

/-- The value of an attribute is smaller than the object that has it. -/
theorem size_lt_of_mem_entries {entries : List Node} (h : entries.mapM entryAttribute = .ok attrs)
    (hm : .named name value ∈ attrs) : value.size < (object entries).size := by
  obtain ⟨e, he, hv⟩ := mem_of_mapM h hm
  exact Nat.lt_trans (size_lt_of_entryAttribute hv) (size_lt_of_mem_object he)

theorem size_ungroup_le (n : Node) : n.ungroup.size ≤ n.size := by
  induction h : n.size using Nat.strongRecOn generalizing n with
  | ind k ih =>
    subst h
    cases n <;> try exact Nat.le_refl _
    case parenthesized e =>
      have := size_lt_parenthesized e
      exact Nat.le_trans (ih e.size this e rfl) (Nat.le_of_lt this)

/-- The value of an attribute is smaller than the part that gives it. -/
theorem size_lt_of_mem_partAttributes (h : n.partAttributes = .ok attrs)
    (hm : .named name value ∈ attrs) : value.size < n.size := by
  refine Nat.lt_of_lt_of_le ?_ (size_ungroup_le n)
  unfold partAttributes at h
  generalize n.ungroup = m at h ⊢
  have hspread {k : Node} (hm : .named name value ∈ if k.isNamed "undefined" then [] else
      [Attribute.spread k]) : False := by
    split at hm <;> simp at hm
  cases m <;> try (cases h; exact (hspread hm).elim)
  case literal v spelling =>
    cases v <;> cases h
    · cases hm
    all_goals exact (hspread hm).elim
  case object entries => exact size_lt_of_mem_entries h hm

/-- The value of an attribute is smaller than the argument that gives it. -/
theorem size_lt_of_mem_argumentAttributes (h : n.argumentAttributes = .ok attrs)
    (hm : .named name value ∈ attrs) : value.size < n.size := by
  cases n <;> try exact size_lt_of_mem_partAttributes h hm
  case identifier x =>
    cases h
    simp at hm

/-- The value of a named attribute is a part of the props. -/
theorem size_lt_of_mem_attributes (h : n.attributes = .ok attrs) (hm : .named name value ∈ attrs) :
    value.size < n.size := by
  refine Nat.lt_of_lt_of_le ?_ (size_ungroup_le n)
  unfold attributes at h
  generalize n.ungroup = m at h ⊢
  cases m <;> try (cases h; done)
  case literal v spelling => cases v <;> cases h; cases hm
  case object entries => exact size_lt_of_mem_entries h hm
  case identifier x =>
    cases h
    split at hm <;> simp at hm
  case conditional => cases h; simp at hm
  case logical => cases h; simp at hm
  case member => cases h; simp at hm
  case call callee arguments o =>
    change (if isComposedSpread (call callee arguments o) then
      (do return (← arguments.mapM argumentAttributes).flatten)
      else Except.ok [Attribute.spread (call callee arguments o)]) = _ at h
    split at h
    · cases ha : arguments.mapM argumentAttributes with
      | error e => rw [ha] at h; cases h
      | ok lists =>
        rw [ha] at h
        cases h
        obtain ⟨l, hl, hv⟩ := List.mem_flatten.1 hm
        obtain ⟨a, ha', h₁⟩ := mem_of_mapM ha hl
        exact Nat.lt_trans (size_lt_of_mem_argumentAttributes h₁ hv) (size_lt_argument ha')
    · cases h
      simp at hm

end Node

end Resugar
