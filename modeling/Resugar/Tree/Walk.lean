import Resugar.Tree.Field

/-!
# Walks

The walked nodes of a tree can be listed from the top down (`Node.walk`).
`Node.traverse` lists them from the top down too, with a stack of nodes still to
come. `Node.visitAll` visits them from the bottom up, with the nodes on the way
to the one that is visited on a stack; `Node.visits` are the visits that it
makes.

`Node.replaceAll` replaces nodes from the bottom up; the replacements are not
looked at again.
-/

namespace Resugar

namespace Node

/-! ## Listing -/

/-- A node and all walked nodes below it, top down and in source order. -/
def walk : Node → List Node :=
  fold fun n fields => n :: (fields.flatMap Field.walkedNodes).flatMap (·.2)

/-- The sum of some numbers. -/
def total : List Nat → Nat
  | [] => 0
  | n :: ns => n + total ns

theorem total_append (ms ns : List Nat) : total (ms ++ ns) = total ms + total ns := by
  induction ms with
  | nil => exact (Nat.zero_add _).symm
  | cons m ms ih => rw [List.cons_append, total, total, ih, Nat.add_assoc]

/-- The number of nodes that a walk lists. -/
def size : Node → Nat :=
  fold fun _ fields => 1 + total ((fields.flatMap Field.walkedNodes).map (·.2))

/-- A map of what a field holds is a map of what a walk finds there. -/
theorem walkedNodes_map {α β : Type} (f : α → β) (field : Field α) :
    (field.map f).walkedNodes = field.walkedNodes.map f := by
  obtain ⟨name, walked, slot⟩ := field
  cases walked
  · rfl
  · cases slot with
    | single child => cases child <;> rfl
    | list items =>
      show ((items.map (Option.map f)).filterMap id) = (items.filterMap id).map f
      induction items with
      | nil => rfl
      | cons o items ih => cases o <;> simp_all

theorem flatMap_walkedNodes_map {α β : Type} (f : α → β) (fields : List (Field α)) :
    (fields.map (Field.map f)).flatMap Field.walkedNodes =
      (fields.flatMap Field.walkedNodes).map f := by
  induction fields with
  | nil => rfl
  | cons field fields ih => simp [walkedNodes_map, ih]

theorem walk_eq (n : Node) : n.walk = n :: n.children.flatMap walk := by
  rw [walk, fold_eq, flatMap_walkedNodes_map]
  simp [children, List.flatMap_map]

theorem size_eq (n : Node) : n.size = 1 + total (n.children.map size) := by
  rw [size, fold_eq, flatMap_walkedNodes_map]
  simp [children, Function.comp_def]

theorem le_total_of_mem {l : List Nat} {a : Nat} (h : a ∈ l) : a ≤ total l := by
  induction l with
  | nil => cases h
  | cons b l ih =>
    rw [total]
    rcases List.mem_cons.1 h with rfl | h
    · omega
    · have := ih h
      omega

theorem size_lt_of_mem_children {c n : Node} (h : c ∈ n.children) : c.size < n.size := by
  rw [size_eq n]
  have := le_total_of_mem (List.mem_map_of_mem (f := size) h)
  omega

/-- The walked nodes of the trees on a stack: the nodes right below the top are
    put in its place. -/
def unwind : List Node → List Node
  | [] => []
  | n :: stack => n :: unwind (n.children ++ stack)
termination_by stack => total (stack.map size)
decreasing_by
  rw [List.map_append, total_append, List.map_cons, total]
  rw [size_eq n]
  omega

/-- A node and all walked nodes below it, top down, with a stack. -/
def traverse (root : Node) : List Node :=
  unwind [root]

/-! ## Visiting -/

section Visiting

variable {m : Type → Type} [Monad m]

/-- Whether a list has an item at a position; equal nodes are two items. -/
def hasItem {α : Type} (items : List α) (i : Nat) : Bool :=
  items.zipIdx.any (·.2 == i)

/-- The visits to an item of a list. An item that is not in the list when its
    turn comes is passed over. -/
def visitItem (items : List (Option (Node × m Unit))) (item : Option (Node × m Unit) × Nat) :
    m Unit :=
  match item.1 with
  | some c => if hasItem items item.2 then c.2 else pure ()
  | none => pure ()

/-- The visits to what stands in a field. -/
def visitField (field : Field (Node × m Unit)) : m Unit :=
  if field.walked then
    match field.slot with
    | .single none => pure ()
    | .single (some c) => c.2
    | .list items => forM items.zipIdx (visitItem items)
  else pure ()

/-- The visits to a node and to all walked nodes below it, from the bottom up.
    The state holds the nodes on the way; a visit is told them, the node that is
    visited last. -/
def visitAll (visit : Node → List Node → m Unit) : Node → StateT (List Node) m Unit :=
  fold fun n fields => do
    modify (· ++ [n])
    forM fields visitField
    visit n (← get)
    modify List.dropLast

end Visiting

/-- The visits to a tree from the bottom up, with what they are told. -/
def visits (root : Node) : List (Node × List Node) :=
  let note (n : Node) (ancestors : List Node) : StateM (List (Node × List Node)) Unit :=
    modify ((n, ancestors) :: ·)
  (((root.visitAll note).run []).run []).2.reverse

/-! ## Names -/

/-- The name of an identifier. -/
def identifierName? : Node → Option Text
  | identifier name => some name
  | _ => none

/-- The names of the identifiers that a walk meets, in order. -/
def names (root : Node) : List Text :=
  root.walk.filterMap identifierName?

/-- How often a walk meets an identifier with a given name. -/
def countReferences (root : Node) (name : Text) : Nat :=
  root.names.count name

/-- Whether a walk meets an identifier with a given name. -/
def references (root : Node) (name : Text) : Bool :=
  root.names.contains name

/-! ## Replacing -/

/-- The functions with a `this` of their own. -/
def isFunction : Node → Bool
  | functionExpr .. => true
  | functionDecl .. => true
  | _ => false

/-- A tree with nodes replaced from the bottom up: `f nested n` is what stands
    for `n`, over nodes that are replaced, or `none` to keep it. `nested` says
    whether a function lies on the way to it. -/
def replaceAll (f : Bool → Node → Option Node) : Node → Bool → Node :=
  fold fun n fields nested =>
    let below := nested || n.isFunction
    let n' := n.withSlots (fields.map fun field =>
      field.slot.map fun (c, r) => if field.walked then r below else c)
    (f nested n').getD n'

/-- A replacement goes through the walked fields, then to the root. -/
theorem replaceAll_eq (f : Bool → Node → Option Node) (n : Node) (nested : Bool) :
    n.replaceAll f nested =
      let n' := n.withSlots (n.fields.map fun field =>
        if field.walked then field.slot.map
          (·.replaceAll f (nested || n.isFunction)) else field.slot)
      (f nested n').getD n' := by
  have hslots : (n.fields.map (Field.map fun c => (c, replaceAll f c))).map (fun field =>
        field.slot.map fun (c, r) => if field.walked then r (nested || n.isFunction) else c) =
      n.fields.map fun field =>
        if field.walked then field.slot.map
          (·.replaceAll f (nested || n.isFunction)) else field.slot := by
    rw [List.map_map]
    refine List.map_congr_left fun field _ => ?_
    obtain ⟨name, walked, slot⟩ := field
    cases walked <;> cases slot <;> simp [Field.map, Slot.map, Function.comp_def]
  rw [replaceAll, fold_eq]
  exact congrArg (fun slots => let n' := n.withSlots slots; (f nested n').getD n') hslots

/-- `replaceAll` with an effect. -/
def replaceAllM {m : Type → Type} [Monad m] (f : Bool → Node → m (Option Node)) :
    Node → Bool → m Node :=
  fold fun n fields nested => do
    let below := nested || n.isFunction
    let slots ← fields.mapM fun field =>
      field.slot.mapM fun (c, r) => if field.walked then r below else pure c
    let n' := n.withSlots slots
    return (← f nested n').getD n'

/-- `replaceAll` everywhere below a node, which itself is kept. -/
def replaceBelow (f : Bool → Node → Option Node) (n : Node) : Node :=
  n.withSlots (n.fields.map fun field =>
    if field.walked then field.slot.map fun c => c.replaceAll f n.isFunction else field.slot)

end Node

end Resugar
