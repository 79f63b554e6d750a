import Mathlib.Data.List.Basic
import Resugar.Concrete.Statement

/-!
# The first error

The search for an error in a concrete tree keeps a stack of trees, and it puts
no tree on it that has no error. It finds the node that a look at all nodes from
the top down would find first.
-/

namespace Resugar

open List

namespace Concrete

mutual

/-- All nodes of a tree, from the top down and in order. -/
def preorder : Concrete → List Concrete
  | node label children => node label children :: preorderAll children

/-- `preorder` for a list of trees. -/
def preorderAll : List Concrete → List Concrete
  | [] => []
  | c :: cs => preorder c ++ preorderAll cs

end

theorem preorderAll_eq (cs : List Concrete) : preorderAll cs = cs.flatMap preorder := by
  induction cs with
  | nil => rfl
  | cons c cs ih => rw [preorderAll, ih, flatMap_cons]

theorem preorder_eq (c : Concrete) : c.preorder = c :: c.children.flatMap preorder := by
  obtain ⟨label, children⟩ := c
  rw [preorder, preorderAll_eq]
  rfl

theorem anyError_eq (cs : List Concrete) : anyError cs = cs.any hasError := by
  induction cs with
  | nil => rfl
  | cons c cs ih => rw [anyError, ih, any_cons]

/-- A tree has an error if one of its nodes marks one. -/
theorem hasError_iff : ∀ c : Concrete, c.hasError = true ↔ ∃ d ∈ c.preorder, d.label.isError = true
  | node label children => by
    have hchildren : ∀ c ∈ children, c.hasError = true ↔ ∃ d ∈ c.preorder, d.label.isError = true :=
      fun c _ => hasError_iff c
    rw [hasError, anyError_eq, Bool.or_eq_true, any_eq_true, preorder_eq,
      exists_mem_cons_iff]
    refine or_congr_right ?_
    constructor
    · rintro ⟨c, hc, herror⟩
      obtain ⟨d, hd, herror⟩ := (hchildren c hc).1 herror
      exact ⟨d, mem_flatMap.2 ⟨c, hc, hd⟩, herror⟩
    · rintro ⟨d, hd, herror⟩
      obtain ⟨c, hc, hd⟩ := mem_flatMap.1 hd
      exact ⟨c, hc, (hchildren c hc).2 ⟨d, hd, herror⟩⟩

/-! ## The search -/

/-- The node that marks an error and comes first in a list. -/
def firstIn? (cs : List Concrete) : Option Concrete :=
  cs.find? fun c => c.label.isError

/-- The first one in two lists is in the first of them, if it has any. -/
theorem firstIn?_append (cs ds : List Concrete) :
    firstIn? (cs ++ ds) = (firstIn? cs).or (firstIn? ds) :=
  find?_append

/-- The trees that the search passes over have no node to be found. -/
theorem firstIn?_filter (cs : List Concrete) :
    firstIn? ((cs.filter hasError).flatMap preorder) = firstIn? (cs.flatMap preorder) := by
  induction cs with
  | nil => rfl
  | cons c cs ih =>
    rw [flatMap_cons, firstIn?_append, ← ih]
    by_cases h : c.hasError = true
    · rw [filter_cons_of_pos h, flatMap_cons, firstIn?_append]
    · have hnone : firstIn? c.preorder = none := by
        refine find?_eq_none.2 fun d hd herror => h ?_
        exact (hasError_iff c).2 ⟨d, hd, herror⟩
      rw [filter_cons_of_neg h, hnone, Option.none_or]

/-- The search finds the first error in the trees on its stack: these are what
    is not seen yet, less what has no error. -/
theorem search_eq_firstIn? (stack : List Concrete) :
    search stack = firstIn? (stack.flatMap preorder) := by
  fun_induction search stack with
  | case1 => rfl
  | case2 c stack h =>
    rw [flatMap_cons, preorder_eq]
    exact (find?_cons_of_pos (p := fun c : Concrete => c.label.isError) h).symm
  | case3 c stack h ih =>
    rw [ih, flatMap_append, firstIn?_append, firstIn?_filter, ← firstIn?_append,
      flatMap_cons, preorder_eq]
    exact (find?_cons_of_neg (p := fun c : Concrete => c.label.isError) h).symm

theorem firstError?_eq_firstIn? (c : Concrete) : c.firstError? = firstIn? c.preorder := by
  rw [firstError?, search_eq_firstIn?, flatMap_singleton]

/-- The pruned search finds the first error. If any node of a tree marks an
    error, then the search finds the first node that does, from the top down and
    in order, and for this node the tree is refused. -/
theorem first_error_found (src : Source) (root : Concrete)
    (h : ∃ c ∈ root.preorder, c.label.isError = true) :
    ∃ before bad after, root.preorder = before ++ bad :: after ∧
      (∀ c ∈ before, c.label.isError = false) ∧ bad.label.isError = true ∧
      root.firstError? = some bad ∧
      root.parse src = .error (.syntaxError
        (Utf8.decodeLossy ((src.slice bad.label.start bad.label.stop).take 40))
        (src.line bad.label.start) (src.column bad.label.start)) := by
  obtain ⟨bad, hbad⟩ := Option.isSome_iff_exists.1 (find?_isSome.2 h)
  have hfirst : root.firstError? = some bad := (firstError?_eq_firstIn? root).trans hbad
  obtain ⟨herror, before, after, hsplit, hbefore⟩ := find?_eq_some_iff_append.1 hbad
  refine ⟨before, bad, after, hsplit, by simpa using hbefore, herror, hfirst, ?_⟩
  rw [parse, if_pos ((hasError_iff root).2 h), syntaxFault, hfirst]
  rfl

/-- A tree of the source `a;b#`: the second statement has two nodes that mark an
    error, and a missing token comes last. -/
def faultyTree : Concrete :=
  node ⟨"program", none, true, false, 0, 4⟩
    [node ⟨"expression_statement", none, true, false, 0, 2⟩
      [node ⟨"identifier", none, true, false, 0, 1⟩ [], node ⟨";", none, false, false, 1, 2⟩ []],
      node ⟨"expression_statement", none, true, false, 2, 4⟩
        [node ⟨"identifier", none, true, false, 2, 3⟩ [],
          node ⟨"ERROR", none, true, false, 3, 4⟩ [node ⟨"ERROR", none, false, false, 3, 4⟩ []],
          node ⟨";", none, false, true, 4, 4⟩ []]]

/-- Of the errors in the tree the first one is reported, and not the missing
    token after it. -/
theorem parse_faultyTree :
    (∃ c ∈ faultyTree.preorder, c.label.isError = true) ∧
      ∃ bad, faultyTree.firstError? = some bad ∧ bad.label = ⟨"ERROR", none, true, false, 3, 4⟩ ∧
        faultyTree.parse ([97, 59, 98, 35].map UInt8.ofNat) = .error (.syntaxError "#" 1 4) := by
  have herror : ∃ c ∈ faultyTree.preorder, c.label.isError = true := by
    refine ⟨node ⟨";", none, false, true, 4, 4⟩ [], ?_, by decide⟩
    simp [faultyTree, preorder, preorderAll]
  obtain ⟨before, bad, after, hsplit, hbefore, hbad, hfirst, hparse⟩ :=
    first_error_found ([97, 59, 98, 35].map UInt8.ofNat) faultyTree herror
  have hlabel : bad.label = ⟨"ERROR", none, true, false, 3, 4⟩ := by
    have hfind : (firstIn? faultyTree.preorder).map label =
        some ⟨"ERROR", none, true, false, 3, 4⟩ := by
      decide
    rw [← firstError?_eq_firstIn?, hfirst] at hfind
    exact Option.some.inj hfind
  rw [hlabel] at hparse
  exact ⟨herror, bad, hfirst, hlabel, hparse.trans rfl⟩

end Concrete

end Resugar
