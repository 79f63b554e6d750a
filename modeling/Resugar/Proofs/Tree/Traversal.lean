import Mathlib.Data.List.Perm.Basic
import Resugar.Proofs.Tree.Vocabulary

/-!
# The order of walks

Two equal nodes in a tree are two nodes, so what a walk does is said of
*positions*: the branches that lead from the root to a node. A branch is a
walked field, by its number, and a place in what the field holds; holes are no
branches.

Both walks go through all positions of a tree, each once, and both take earlier
branches first. From the top down a node comes before what is below it, and from
the bottom up after.
-/

namespace Resugar

open List

/-! ## Branches and positions -/

/-- A way down from a node: the number of a field, and a place in it. -/
structure Branch where
  field : Nat
  item : Nat

/-- The order of the branches of a node: by fields, and in a field by places. -/
def Branch.Before (a b : Branch) : Prop :=
  a.field < b.field ∨ a.field = b.field ∧ a.item < b.item

/-- The branches that lead from the root to a node. -/
abbrev Position := List Branch

namespace Position

/-- Where two positions part, the first takes an earlier branch. -/
def Beside (p q : Position) : Prop :=
  ∃ r a b s t, Branch.Before a b ∧ p = r ++ a :: s ∧ q = r ++ b :: t

/-- The second position is below the first. -/
def Above (p q : Position) : Prop :=
  p <+: q ∧ p ≠ q

/-- The order from the top down. -/
def ParentFirst (p q : Position) : Prop :=
  Above p q ∨ Beside p q

/-- The order from the bottom up. -/
def ParentLast (p q : Position) : Prop :=
  Above q p ∨ Beside p q

theorem Beside.cons {p q : Position} (h : Beside p q) (b : Branch) : Beside (b :: p) (b :: q) := by
  obtain ⟨r, a, a', s, t, hbefore, rfl, rfl⟩ := h
  exact ⟨b :: r, a, a', s, t, hbefore, rfl, rfl⟩

theorem Beside.ne {p q : Position} (h : Beside p q) : p ≠ q := by
  obtain ⟨r, a, b, s, t, hbefore, rfl, rfl⟩ := h
  intro heq
  obtain ⟨rfl, -⟩ := cons.inj (append_cancel_left heq)
  exact hbefore.elim (Nat.lt_irrefl _) fun h => Nat.lt_irrefl _ h.2

theorem Above.cons {p q : Position} (h : Above p q) (b : Branch) : Above (b :: p) (b :: q) :=
  ⟨(prefix_cons_inj b).2 h.1, fun heq => h.2 (cons.inj heq).2⟩

theorem ParentFirst.cons {p q : Position} (b : Branch) (h : ParentFirst p q) :
    ParentFirst (b :: p) (b :: q) :=
  h.imp (·.cons b) (·.cons b)

theorem ParentLast.cons {p q : Position} (b : Branch) (h : ParentLast p q) :
    ParentLast (b :: p) (b :: q) :=
  h.imp (·.cons b) (·.cons b)

theorem beside_of_before {a b : Branch} (h : a.Before b) (p q : Position) :
    Beside (a :: p) (b :: q) :=
  ⟨[], a, b, p, q, h, rfl, rfl⟩

end Position

/-! ## The branches of a node -/

namespace Field

variable {α β : Type}

/-- What a walked field with a given number holds, in order, each with the
    branch that leads to it. -/
def branchesAt (number : Nat) (field : Field α) : List (Branch × α) :=
  if field.walked then field.slot.items.zipIdx.filterMap fun item => item.1.map fun c =>
    (⟨number, item.2⟩, c) else []

/-- What the walked fields of a node hold, in order, with the branches. -/
def branches (fields : List (Field α)) : List (Branch × α) :=
  fields.zipIdx.flatMap fun f => f.1.branchesAt f.2

/-- A branch leads to what its field holds there, if that is walked. -/
theorem mem_branchesAt_iff {number : Nat} {field : Field α} {b : Branch} {c : α} :
    (b, c) ∈ field.branchesAt number ↔
      b.field = number ∧ (if field.walked then
        field.slot.items[b.item]?.join else none) = some c := by
  rw [branchesAt]
  split
  · simp only [mem_filterMap, Option.map_eq_some_iff, Prod.mk.injEq, Option.join_eq_some_iff]
    constructor
    · rintro ⟨⟨o, i⟩, hitem, c, rfl, rfl, rfl⟩
      exact ⟨rfl, mem_zipIdx_iff_getElem?.1 hitem⟩
    · rintro ⟨rfl, hitem⟩
      exact ⟨(some c, b.item), mem_zipIdx_iff_getElem?.2 hitem, c, rfl, rfl, rfl⟩
  · simp

theorem pairwise_zipIdx (l : List α) : l.zipIdx.Pairwise fun x y => x.2 < y.2 := by
  refine (pairwise_map (f := Prod.snd)).1 ?_
  rw [zipIdx_map_snd]
  exact pairwise_lt_range'

/-- The branches of a field come in order. -/
theorem pairwise_branchesAt (number : Nat) (field : Field α) :
    (field.branchesAt number).Pairwise fun x y => x.1.Before y.1 := by
  rw [branchesAt]
  split
  · refine pairwise_filterMap.2 ((pairwise_zipIdx _).imp fun {i j} hlt x hx y hy => .inr ?_)
    obtain ⟨c, -, rfl⟩ := Option.map_eq_some_iff.1 hx
    obtain ⟨d, -, rfl⟩ := Option.map_eq_some_iff.1 hy
    exact ⟨rfl, hlt⟩
  · exact .nil

/-- The branches are listed in their order. -/
theorem pairwise_branches (fields : List (Field α)) :
    (branches fields).Pairwise fun x y => x.1.Before y.1 := by
  refine pairwise_flatMap.2 ⟨fun f _ => pairwise_branchesAt f.2 f.1, ?_⟩
  refine (pairwise_zipIdx fields).imp fun {f g} hlt x hx y hy => .inl ?_
  rw [(mem_branchesAt_iff.1 hx).1, (mem_branchesAt_iff.1 hy).1]
  exact hlt

/-- The branches of a field lead to the nodes that a walk finds in it. -/
theorem map_snd_branchesAt (number : Nat) (field : Field α) :
    (field.branchesAt number).map (·.2) = field.walkedNodes := by
  rw [branchesAt, walkedNodes]
  split
  · rw [map_filterMap, ← Slot.filterMap_items]
    conv_rhs => rw [← zipIdx_map_fst 0 field.slot.items, filterMap_map]
    refine filterMap_congr fun item _ => ?_
    simp [Option.map_map, Function.comp_def]
  · rfl

theorem map_snd_branches (fields : List (Field α)) :
    (branches fields).map (·.2) = fields.flatMap walkedNodes := by
  rw [branches, map_flatMap]
  conv_rhs => rw [← zipIdx_map_fst 0 fields, flatMap_map]
  simp only [map_snd_branchesAt]

/-- A function applied to what a field holds changes no branch of it. -/
theorem branchesAt_map (f : α → β) (number : Nat) (field : Field α) :
    (field.map f).branchesAt number = (field.branchesAt number).map fun x => (x.1, f x.2) := by
  have hitems : (field.slot.map f).items = field.slot.items.map (Option.map f) := by
    cases field.slot <;> rfl
  rw [branchesAt, branchesAt, Field.map, hitems]
  split
  · rw [zipIdx_map, filterMap_map, map_filterMap]
    refine filterMap_congr fun item _ => ?_
    simp [Function.comp_def]
  · rfl

theorem branches_map (f : α → β) (fields : List (Field α)) :
    branches (fields.map (Field.map f)) = (branches fields).map fun x => (x.1, f x.2) := by
  rw [branches, branches, zipIdx_map, flatMap_map, map_flatMap]
  simp only [Prod.map_fst, Prod.map_snd, id_eq, branchesAt_map]

end Field

namespace Node

/-- The node at a branch: what a walked field holds at some place. -/
def down? (n : Node) (b : Branch) : Option Node :=
  n.fields[b.field]?.bind fun field => if field.walked then field.slot.items[b.item]?.join else none

/-- The node at a position. -/
def node? : Node → Position → Option Node
  | n, [] => some n
  | n, b :: p => (n.down? b).bind (node? · p)

/-- The nodes on the way to a position, the root first and it last. -/
def trail? : Node → Position → Option (List Node)
  | n, [] => some [n]
  | n, b :: p => ((n.down? b).bind (trail? · p)).map (n :: ·)

/-- The walked nodes right below a node, with the branches to them. -/
def branches (n : Node) : List (Branch × Node) :=
  Field.branches n.fields

theorem mem_branches_iff {n c : Node} {b : Branch} : (b, c) ∈ n.branches ↔ n.down? b = some c := by
  simp only [branches, Field.branches, mem_flatMap, Field.mem_branchesAt_iff, down?,
    Option.bind_eq_some_iff]
  constructor
  · rintro ⟨⟨field, i⟩, hfield, rfl, hc⟩
    exact ⟨field, mem_zipIdx_iff_getElem?.1 hfield, hc⟩
  · rintro ⟨field, hfield, hc⟩
    exact ⟨(field, b.field), mem_zipIdx_iff_getElem?.2 hfield, rfl, hc⟩

theorem map_snd_branches (n : Node) : n.branches.map (·.2) = n.children :=
  Field.map_snd_branches n.fields

theorem mem_parts_of_mem_branches {n : Node} {x : Branch × Node} (h : x ∈ n.branches) :
    x.2 ∈ n.parts := by
  have hchild : x.2 ∈ n.branches.map (·.2) := mem_map_of_mem h
  rw [map_snd_branches] at hchild
  exact mem_parts_of_mem_children hchild

/-- What is gathered from the nodes right below is gathered by branches. -/
theorem flatMap_children {β : Type} (n : Node) (f : Node → List β) :
    n.children.flatMap f = n.branches.flatMap fun x => f x.2 := by
  rw [← map_snd_branches, flatMap_map]

/-! ## Positions in order -/

/-- All positions of a tree, from the top down. -/
def positions : Node → List Position :=
  fold fun _ fields => [] :: (Field.branches fields).flatMap fun x => x.2.2.map (x.1 :: ·)

/-- All positions of a tree, from the bottom up. -/
def positionsUp : Node → List Position :=
  fold fun _ fields => ((Field.branches fields).flatMap fun x => x.2.2.map (x.1 :: ·)) ++ [[]]

/-- From the top down, the root comes before the positions below it. -/
theorem positions_eq (n : Node) :
    n.positions = [] :: n.branches.flatMap fun x => x.2.positions.map (x.1 :: ·) := by
  rw [positions, fold_eq, Field.branches_map, flatMap_map]
  rfl

/-- From the bottom up, the root comes after the positions below it. -/
theorem positionsUp_eq (n : Node) :
    n.positionsUp = (n.branches.flatMap fun x => x.2.positionsUp.map (x.1 :: ·)) ++ [[]] := by
  rw [positionsUp, fold_eq, Field.branches_map, flatMap_map]
  rfl

theorem mem_positions_iff {n : Node} {p : Position} : p ∈ n.positions ↔ (n.node? p).isSome := by
  induction p generalizing n with
  | nil =>
    rw [positions_eq, node?]
    exact iff_of_true mem_cons_self rfl
  | cons b p ih =>
    rw [positions_eq, node?, mem_cons, or_iff_right (cons_ne_nil b p), mem_flatMap]
    constructor
    · rintro ⟨⟨a, c⟩, hc, hp⟩
      obtain ⟨q, hq, heq⟩ := mem_map.1 hp
      obtain ⟨rfl, rfl⟩ := cons.inj heq
      rw [mem_branches_iff.1 hc]
      exact ih.1 hq
    · intro h
      rcases hdown : n.down? b with _ | c
      · rw [hdown] at h
        cases h
      · rw [hdown] at h
        exact ⟨(b, c), mem_branches_iff.2 hdown, mem_map_of_mem (ih.2 h)⟩

theorem perm_positionsUp (n : Node) : n.positionsUp.Perm n.positions := by
  induction n using induct with
  | h n ih =>
    rw [positionsUp_eq, positions_eq]
    refine perm_append_comm.trans (.cons [] (List.Perm.flatMap_left _ fun x hx => ?_))
    exact (ih _ (mem_parts_of_mem_branches hx)).map _

section Below

variable {f : Node → List Position} {n : Node} {p : Position}

/-- A position along a branch is below the root. -/
theorem above_of_mem_below (h : p ∈ n.branches.flatMap fun x => (f x.2).map (x.1 :: ·)) :
    Position.Above [] p := by
  obtain ⟨x, -, hp⟩ := mem_flatMap.1 h
  obtain ⟨p, -, rfl⟩ := mem_map.1 hp
  exact ⟨List.nil_prefix, (cons_ne_nil x.1 p).symm⟩

/-- An order that is kept below a branch, earlier branches first, is kept along
    all branches of a node. -/
theorem pairwise_below {R : Position → Position → Prop}
    (hcons : ∀ {p q} (b : Branch), R p q → R (b :: p) (b :: q))
    (hbeside : ∀ {p q}, Position.Beside p q → R p q) (h : ∀ c ∈ n.parts, (f c).Pairwise R) :
    (n.branches.flatMap fun x => (f x.2).map (x.1 :: ·)).Pairwise R := by
  refine pairwise_flatMap.2
    ⟨fun x hx => ?_, (Field.pairwise_branches n.fields).imp fun hbefore p hp q hq => ?_⟩
  · -- along one branch
    have hc := h _ (mem_parts_of_mem_branches hx)
    exact pairwise_map.2 (hc.imp fun hpq => hcons x.1 hpq)
  · -- along two branches, the first of which is the earlier one
    obtain ⟨p, -, rfl⟩ := mem_map.1 hp
    obtain ⟨q, -, rfl⟩ := mem_map.1 hq
    exact hbeside (Position.beside_of_before hbefore p q)

end Below

theorem pairwise_positions (n : Node) : n.positions.Pairwise Position.ParentFirst := by
  induction n using induct with
  | h n ih =>
    rw [positions_eq, pairwise_cons]
    exact ⟨fun p hp => .inl (above_of_mem_below hp),
      pairwise_below Position.ParentFirst.cons .inr ih⟩

theorem nodup_positions (n : Node) : n.positions.Nodup :=
  n.pairwise_positions.imp fun h => h.elim (·.2) (·.ne)

theorem pairwise_positionsUp (n : Node) : n.positionsUp.Pairwise Position.ParentLast := by
  induction n using induct with
  | h n ih =>
    rw [positionsUp_eq, pairwise_append]
    refine ⟨pairwise_below Position.ParentLast.cons .inr ih,
      pairwise_singleton _ _, fun p hp q hq => ?_⟩
    obtain rfl := mem_singleton.1 hq
    exact .inl (above_of_mem_below hp)

/-! ## From the top down -/

/-- The walk with a stack lists the walked nodes of the trees on the stack, one
    tree after the other. -/
theorem unwind_eq (stack : List Node) : unwind stack = stack.flatMap walk := by
  fun_induction unwind stack with
  | case1 => rfl
  | case2 n stack ih => rw [ih, flatMap_append, flatMap_cons, walk_eq, cons_append]

theorem traverse_eq_walk (n : Node) : n.traverse = n.walk := by
  rw [traverse, unwind_eq, flatMap_singleton]

theorem walk_eq_positions (n : Node) : n.walk.map some = n.positions.map n.node? := by
  induction n using induct with
  | h n ih =>
    rw [walk_eq, positions_eq, flatMap_children, map_cons, map_cons,
      map_flatMap, map_flatMap]
    refine congrArg (some n :: ·) (flatMap_congr fun x hx => ?_)
    rw [ih _ (mem_parts_of_mem_branches hx), map_map]
    refine map_congr_left fun p _ => ?_
    rw [Function.comp_apply, node?, mem_branches_iff.1 hx, Option.bind_some]

/-! ## From the bottom up -/

/-- The visits to a tree, by recursion: those to the nodes below the root, and
    the one to the root. -/
def calls : Node → List (Node × List Node) :=
  fold fun n fields =>
    ((fields.flatMap Field.walkedNodes).flatMap (·.2)).map (fun v => (v.1, n :: v.2)) ++ [(n, [n])]

/-- The visits to a tree are those below its root, and one to the root. -/
theorem calls_eq (n : Node) :
    n.calls = (n.children.flatMap calls).map (fun v => (v.1, n :: v.2)) ++ [(n, [n])] := by
  rw [calls, fold_eq, flatMap_walkedNodes_map, flatMap_map]
  rfl

/-- The visits go to the nodes at the positions, from the bottom up, and are
    told the way there. -/
theorem calls_eq_positionsUp (n : Node) :
    n.calls.map (fun v => (some v.1, some v.2)) = n.positionsUp.map fun p =>
      (n.node? p, n.trail? p) := by
  induction n using induct with
  | h n ih =>
    rw [calls_eq, positionsUp_eq, flatMap_children, map_append, map_append, map_map,
      map_flatMap, map_flatMap]
    -- below a branch, the node is the same and the way to it is longer by the root
    refine congrArg (· ++ [(some n, some [n])]) (flatMap_congr fun x hx => ?_)
    have hbelow : (fun p => (n.node? p, n.trail? p)) ∘ (x.1 :: ·) =
        (fun v => (v.1, v.2.map (n :: ·))) ∘ fun p => (x.2.node? p, x.2.trail? p) := by
      funext p
      simp only [Function.comp_apply, node?, trail?, mem_branches_iff.1 hx, Option.bind_some]
    rw [map_map, hbelow, ← map_map (l := x.2.positionsUp),
      ← ih _ (mem_parts_of_mem_branches hx), map_map]
    rfl

section Visiting

variable {m : Type → Type} [Monad m] [LawfulMonad m]

/-- Every item of a list is in it when its turn comes. -/
theorem hasItem_of_mem {α : Type} {items : List α} {x : α × Nat} (h : x ∈ items.zipIdx) :
    hasItem items x.2 = true :=
  any_eq_true.2 ⟨x, h, beq_self_eq_true x.2⟩

/-- Items of a list are all still in it in turn: none is passed over. -/
theorem forM_visitItem {items : List (Option (Node × m Unit))}
    {l : List (Option (Node × m Unit) × Nat)} (hl : l ⊆ items.zipIdx) :
    forM l (visitItem items) = forM ((l.map Prod.fst).filterMap id) (·.2) := by
  induction l with
  | nil => rfl
  | cons item l ih =>
    obtain ⟨hitem, hl⟩ := cons_subset.1 hl
    rw [forM_cons, ih hl, visitItem, hasItem_of_mem hitem]
    -- a hole, or a node
    rcases item with ⟨_ | c, i⟩ <;> simp

/-- A field is visited by visiting what a walk finds in it. -/
theorem visitField_eq (field : Field (Node × m Unit)) :
    visitField field = forM field.walkedNodes (·.2) := by
  obtain ⟨name, walked, slot⟩ := field
  cases walked
  · rfl
  · rcases slot with (_ | c) | items
    · rfl
    · simp [visitField, Field.walkedNodes, Slot.nodes]
    · refine (forM_visitItem (List.Subset.refl _)).trans ?_
      rw [zipIdx_map_fst]
      rfl

theorem forM_visitField (fields : List (Field (Node × m Unit))) :
    forM fields visitField = forM (fields.flatMap Field.walkedNodes)
      fun c : Node × m Unit => c.2 := by
  induction fields with
  | nil => rfl
  | cons field fields ih =>
    rw [forM_cons, ih, visitField_eq, flatMap_cons, forM_append]

/-- A node is put on the way, the nodes below it are visited, then it is, and is
    taken off the way. -/
theorem visitAll_eq (visit : Node → List Node → m Unit) (n : Node) :
    n.visitAll visit = (do
      modify (· ++ [n])
      forM n.children (visitAll visit)
      visit n (← get)
      modify dropLast) := by
  rw [visitAll, fold_eq, forM_visitField, flatMap_walkedNodes_map, forM_map]
  rfl

/-- The visits to some trees, one after the other, if each of them leaves the
    stack as it was. -/
theorem forM_visitAll {visit : Node → List Node → m Unit} {cs : List Node} {above : List Node}
    (h : ∀ c ∈ cs, (c.visitAll visit).run above = do
      forM c.calls fun v => visit v.1 (above ++ v.2)
      return ((), above)) :
    (forM cs (visitAll visit)).run above = (do
      forM (cs.flatMap calls) fun v => visit v.1 (above ++ v.2)
      return ((), above)) := by
  induction cs with
  | nil => simp
  | cons c cs ih =>
    obtain ⟨hc, hcs⟩ := forall_mem_cons.1 h
    rw [forM_cons, StateT.run_bind, hc, flatMap_cons, forM_append]
    simp [ih hcs]

/-- The walk makes its visits, and leaves the stack as it was. -/
theorem visitAll_eq_forM (visit : Node → List Node → m Unit) (n : Node) (above : List Node) :
    (n.visitAll visit).run above = (do
      forM n.calls fun v => visit v.1 (above ++ v.2)
      return ((), above)) := by
  induction n using induct generalizing above with
  | h n ih =>
    -- while the nodes below `n` are visited, `n` is on the stack
    have hbelow := forM_visitAll fun c hc => ih c (mem_parts_of_mem_children hc) (above ++ [n])
    rw [visitAll_eq, calls_eq]
    simp [hbelow, forM_append, forM_map]

end Visiting

/-- Noting visits one by one notes them all, the last one first. -/
theorem run_forM_note (l s : List (Node × List Node)) :
    (forM l fun v => (modify (v :: ·) : StateM (List (Node × List Node)) Unit)).run s =
      ((), l.reverse ++ s) := by
  induction l generalizing s with
  | nil => rfl
  | cons v l ih =>
    rw [forM_cons, StateT.run_bind, reverse_cons,
      append_assoc, singleton_append]
    exact ih (v :: s)

theorem visits_eq_calls (n : Node) : n.visits = n.calls := by
  rw [visits, visitAll_eq_forM]
  show ((forM n.calls fun v =>
    (modify (v :: ·) : StateM (List (Node × List Node)) Unit)).run []).2.reverse = n.calls
  rw [run_forM_note, append_nil, reverse_reverse]

/-- The two traversals agree. From the top down, the walk with a stack lists
    what the recursion does: the nodes at all positions of the tree, each once,
    a node before what is below it and earlier branches first. From the bottom
    up, a walk that changes nothing visits the same positions, each once, a node
    after what is below it and earlier branches first; every visit, whatever it
    does, is told the node and the nodes on the way to it, and in the end there
    are no more ancestors than at the start. -/
theorem traversals_agree (root : Node) :
    root.traverse = root.walk ∧
      (∀ (σ : Type) (visit : Node → List Node → StateM σ Unit), (root.visitAll visit).run [] = (do
        forM root.visits fun v => visit v.1 v.2
        return ((), []))) ∧
      ∃ down up : List Position, (∀ p, p ∈ down ↔ (root.node? p).isSome) ∧ down.Nodup ∧
        down.Pairwise Position.ParentFirst ∧ root.traverse.map some = down.map root.node? ∧
        up.Perm down ∧ up.Pairwise Position.ParentLast ∧
        root.visits.map (fun v => (some v.1, some v.2)) =
          up.map fun p => (root.node? p, root.trail? p) := by
  rw [traverse_eq_walk, visits_eq_calls]
  exact ⟨rfl, fun _ visit => root.visitAll_eq_forM visit [], root.positions, root.positionsUp,
    fun _ => mem_positions_iff, root.nodup_positions, root.pairwise_positions,
    root.walk_eq_positions, root.perm_positionsUp, root.pairwise_positionsUp,
    root.calls_eq_positionsUp⟩

-- `[a.b, , this[c]]`: the hole and the property `b` are no positions
example : (array [some (member (identifier "a") (identifier "b") false false), none,
    some (member thisExpr (identifier "c") true false)]).visits.map
      (fun v => (v.1.kindName, v.2.length)) =
      [("Identifier", 3), ("MemberExpression", 2), ("ThisExpression", 3), ("Identifier", 3),
        ("MemberExpression", 2), ("ArrayExpression", 1)] := by
  decide +kernel

end Node

end Resugar
