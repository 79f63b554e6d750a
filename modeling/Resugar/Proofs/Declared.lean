import Resugar.Proofs.Tree.Vocabulary
import Resugar.Rename

/-!
# Declared names

The names that a statement declares are those that its declaration binds
(`Node.declaredNames`): a name, or all names in a pattern (`Node.boundNames`).
Renaming takes each statement of a program by itself (`Renaming.sweep_program`),
and a renamed statement declares the new names
(`Renaming.declaredNames_inStatement`).
-/

namespace Resugar

open Node

namespace Node

/-- The fields of a declaration or a pattern that hold what it binds. A member
    counts as its receiver, since `a.default` stands for `a` where `a` is
    renamed. -/
def binders {α : Type} (n : Node) (fields : List α) : List α :=
  match n with
  | varDecl .. | objectPattern .. | arrayPattern .. | restPattern .. => fields
  | declarator .. | functionDecl .. | classDecl .. | defaultPattern .. | member .. => fields.take 1
  | entry .. => fields.drop 1
  | _ => []

/-- The names that a declaration or a pattern binds. -/
def boundNames : Node → List Text :=
  fold fun n fields => n.identifierName?.toList ++
    ((n.binders fields).flatMap (·.slot.nodes)).flatMap (·.2)

/-- Variables, a function or a class. -/
def declaresNames : Node → Bool
  | varDecl .. | functionDecl .. | classDecl .. => true
  | _ => false

/-- The declaration of a statement, which may be an export of it. -/
def declaration? : Node → Option Node
  | exportNamed declaration _ _ => declaration.filter declaresNames
  | exportDefault declaration => (some declaration).filter declaresNames
  | n => (some n).filter declaresNames

/-- The names that a statement declares: variables, a function or a class,
    exported or not. -/
def declaredNames (n : Node) : List Text :=
  n.declaration?.toList.flatMap boundNames

/-- Which fields bind does not depend on what they hold. -/
theorem binders_map {α β : Type} (f : α → β) (n : Node) (fields : List α) :
    n.binders (fields.map f) = (n.binders fields).map f := by
  unfold binders
  split <;> simp [List.map_take]

theorem binders_subset {α : Type} (n : Node) (fields : List α) : n.binders fields ⊆ fields := by
  unfold binders
  split <;> simp [List.take_subset, fields.tail_sublist.subset]

/-- The names that a tree binds are those of its root and binding fields. -/
theorem boundNames_eq (n : Node) :
    n.boundNames = n.identifierName?.toList ++
      ((n.binders n.fields).flatMap (·.slot.nodes)).flatMap boundNames := by
  rw [boundNames, fold_eq, binders_map, flatMap_nodes_map, List.flatMap_map]

/-- The fields that bind are walked. -/
theorem walked_of_mem_binders {n : Node} {f : Field Node} (h : f ∈ n.binders n.fields) :
    f.walked = true := by
  unfold binders at h
  split at h <;> simp_all [Field.list, Field.single]

theorem binders_setSlots {α : Type} (s : Nat → Slot Node) (n : Node) (fields : List α) :
    (n.setSlots s).binders fields = n.binders fields := by
  cases n <;> rfl

end Node

namespace Renaming

variable (r : Renaming)

/-- Only a renamed binding takes the place of a member. -/
theorem collapse?_eq_some {r : Renaming} {n m : Node} (h : r.collapse? n = some m) :
    ∃ x property computed o, n = .member (.identifier x) property computed o ∧ m = .identifier x ∧
      r.isBinding x = true := by
  unfold collapse? at h
  split at h
  · obtain ⟨hreceiver, hname⟩ := Option.filter_eq_some_iff.1 h
    obtain ⟨x, hx, hbinding⟩ := (Option.any_eq_true ..).1 hname
    obtain rfl := identifierName?_eq_some.1 hx
    unfold receiver? at hreceiver
    split at hreceiver <;> cases hreceiver
    exact ⟨x, _, _, _, rfl, rfl, hbinding⟩
  · cases h

/-- `a.default` binds what `a` does. -/
theorem boundNames_of_collapse? {r : Renaming} {n m : Node} (h : r.collapse? n = some m) :
    m.boundNames = n.boundNames := by
  obtain ⟨x, property, computed, o, rfl, rfl, -⟩ := collapse?_eq_some h
  rw [boundNames_eq (.member ..)]
  simp [identifierName?, binders, Field.single, Slot.nodes]

/-- One step of renaming, below which all is renamed already. -/
theorem boundNames_rename? (n : Node) :
    ((r.rename? n).getD n).boundNames = n.identifierName?.toList.map r.apply ++
      ((n.binders n.fields).flatMap (·.slot.nodes)).flatMap boundNames := by
  unfold rename?
  split
  · rfl
  · rename_i hid
    have hname : n.identifierName? = none := by
      unfold identifierName?
      split
      · exact absurd rfl (hid _)
      · rfl
    have hn := boundNames_eq n
    rw [hname] at hn ⊢
    cases hc : r.collapse? n with
    | none => exact hn
    | some m => exact (boundNames_of_collapse? hc).trans hn

/-- A renaming throughout a pattern renames what the pattern binds. -/
theorem boundNames_replaceAll (n : Node) (nested : Bool) :
    (n.replaceAll (fun _ => r.rename?) nested).boundNames = n.boundNames.map r.apply := by
  induction n using induct generalizing nested with
  | h n ih =>
    rw [replaceAll_eq, boundNames_rename?, fields_withSlots_map,
      boundNames_eq n, List.map_append]
    rw [withSlots, identifierName?_setSlots, binders_setSlots, binders_map]
    congr 1
    simp only [List.flatMap_map, List.map_flatMap, List.flatMap_assoc]
    refine List.flatMap_congr fun f hf => ?_
    rw [walked_of_mem_binders hf, if_pos rfl, Slot.nodes_map, List.flatMap_map]
    exact List.flatMap_congr fun c hc => ih c (mem_parts (binders_subset _ _ hf) hc) _

/-! ## Statements -/

/-- A statement with all bindings renamed. -/
def inStatement (n : Node) : Node :=
  if r.entries.isEmpty then n else n.replaceAll (fun _ => r.rename?) false

/-- A renaming of a program renames in its statements, one by one. -/
theorem sweep_program (body : List Node) :
    r.sweep (.program body) = .program (body.map r.inStatement) := by
  unfold sweep inStatement
  split
  · simp
  · exact congrArg program (Slot.nodes_map_some _ body)

/-- A member stays one, or its receiver takes its place, as a name. -/
theorem replaceAll_member (receiver property : Node) (computed isOptional nested : Bool) :
    let n :=
      (member receiver property computed isOptional).replaceAll (fun _ => r.rename?) nested
    (∃ receiver property, n = .member receiver property computed isOptional) ∨
      ∃ x, n = .identifier x := by
  rw [replaceAll_eq]
  dsimp only
  rcases hcollapse : r.rename?
    ((member receiver property computed isOptional).withSlots _) with _ | m
  · exact .inl ⟨_, _, rfl⟩
  · obtain ⟨x, -, -, -, -, rfl, -⟩ := r.collapse?_eq_some hcollapse
    exact .inr ⟨x, rfl⟩

/-- A declaration stays one when its names are renamed. -/
theorem declaresNames_replaceAll (n : Node) (nested : Bool) :
    (n.replaceAll (fun _ => r.rename?) nested).declaresNames = n.declaresNames := by
  cases n with
  | member receiver property computed isOptional =>
    obtain ⟨_, _, h⟩ | ⟨_, h⟩ :=
      r.replaceAll_member receiver property computed isOptional nested <;> rw [h] <;> rfl
  | _ => rfl

/-- The declaration of a renamed statement is renamed. -/
theorem declaration?_replaceAll (n : Node) (nested : Bool) :
    (n.replaceAll (fun _ => r.rename?) nested).declaration? =
      n.declaration?.map fun d => d.replaceAll (fun _ => r.rename?) nested := by
  have hfilter (d : Node) : (some (d.replaceAll (fun _ => r.rename?) nested)).filter
      declaresNames = ((some d).filter declaresNames).map fun d =>
      d.replaceAll (fun _ => r.rename?) nested := by
    rw [Option.filter_some, Option.filter_some, declaresNames_replaceAll]
    split <;> rfl
  cases n with
  | exportNamed declaration specifiers source =>
    cases declaration with
    | none => rfl
    | some d => cases nested <;> exact hfilter d
  | exportDefault declaration => cases nested <;> exact hfilter declaration
  | member receiver property computed isOptional =>
    obtain ⟨_, _, h⟩ | ⟨_, h⟩ :=
      r.replaceAll_member receiver property computed isOptional nested <;> rw [h] <;> rfl
  | _ => rfl

/-- A renamed statement declares the new names. -/
theorem declaredNames_inStatement (n : Node) :
    (r.inStatement n).declaredNames = n.declaredNames.map r.apply := by
  unfold inStatement
  split
  · rename_i hempty
    have happly : r.apply = id := by
      funext x
      rw [apply, get?, List.isEmpty_iff.1 hempty]
      rfl
    rw [happly, List.map_id]
  · rw [declaredNames, declaration?_replaceAll, declaredNames]
    cases n.declaration? with
    | none => rfl
    | some d => simp [boundNames_replaceAll]

end Renaming

end Resugar
