import Resugar.Tree.Walk

/-!
# Sizes

A walked node below another one is smaller than it. The lemmas name the parts of
a few kinds.
-/

namespace Resugar

namespace Node

theorem mem_filterMap_id {n : Node} {ns : List (Option Node)} (h : some n ∈ ns) :
    n ∈ ns.filterMap id :=
  List.mem_filterMap.2 ⟨some n, h, rfl⟩

theorem size_lt_parenthesized (e : Node) : e.size < (parenthesized e).size :=
  size_lt_of_mem_children List.mem_cons_self

theorem size_lt_conditional_consequent (test consequent alternate : Node) :
    consequent.size < (conditional test consequent alternate).size :=
  size_lt_of_mem_children (List.mem_cons_of_mem _ List.mem_cons_self)

theorem size_lt_conditional_alternate (test consequent alternate : Node) :
    alternate.size < (conditional test consequent alternate).size :=
  size_lt_of_mem_children (List.mem_cons_of_mem _ (List.mem_cons_of_mem _ List.mem_cons_self))

theorem size_lt_logical_left (operator : Text) (left right : Node) :
    left.size < (logical operator left right).size :=
  size_lt_of_mem_children List.mem_cons_self

theorem size_lt_logical_right (operator : Text) (left right : Node) :
    right.size < (logical operator left right).size :=
  size_lt_of_mem_children (List.mem_cons_of_mem _ List.mem_cons_self)

/-- An argument is smaller than its call. -/
theorem size_lt_argument {a callee : Node} {arguments : List Node} {o : Bool} (h : a ∈ arguments) :
    a.size < (call callee arguments o).size := by
  refine size_lt_of_mem_children ?_
  show a ∈ [callee] ++ ((arguments.map some).filterMap id ++ [])
  exact List.mem_append_right _ (List.mem_append_left _ (mem_filterMap_id (List.mem_map_of_mem h)))

/-- An entry is smaller than its object. -/
theorem size_lt_of_mem_object {e : Node} {entries : List Node} (h : e ∈ entries) :
    e.size < (object entries).size :=
  size_lt_of_mem_children (List.mem_append_left _ (mem_filterMap_id (List.mem_map_of_mem h)))

/-- An element is smaller than its array. -/
theorem size_lt_of_mem_array {e : Node} {elements : List (Option Node)}
    (h : e ∈ elements.filterMap id) : e.size < (array elements).size :=
  size_lt_of_mem_children (List.mem_append_left _ h)

/-- A value is smaller than its entry. -/
theorem size_lt_entry_value (key value : Node) (kind : EntryKind)
    (computed shorthand isMethod : Bool) :
    value.size < (entry key value kind computed shorthand isMethod).size :=
  size_lt_of_mem_children (List.mem_append_right _ List.mem_cons_self)

end Node

end Resugar
