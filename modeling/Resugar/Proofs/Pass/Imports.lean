import Resugar.Proofs.Pass.Run

/-!
# The names of imports

A pass adds its imports to the top level of a program, whatever scopes their
variables stand in. So each of them has to have a name that is free there. A new
name is: it is neither that of an import before nor one of the program
(`PassState.Sound`). But an import may keep the name of its variable, a renamed
variable may have namesakes in other scopes, which are renamed with it, and the
pass declares names of its own. With these exceptions, and no others, names
clash.
-/

namespace Resugar

/-- Why a statement may declare a name that becomes that of an import. -/
inductive Outcome.MayClash (o : Outcome) (program : Node) (x : Text) (i : Import) : Prop
  | own (h : i.binding = i.name)
  /-- The statement is renamed, as is any variable of the same name. -/
  | renamed (h : o.state.renames.apply x ≠ x)
  | made (h : x ∉ program.names)

namespace Outcome.Ran

variable {o : Outcome} {program : Node} {body : List Node}

/-- The imports have different names if those of their variables do. -/
theorem nodup_added (h : o.Ran program body)
    (hown : o.added.Pairwise fun i j => j.binding = j.name → i.name ≠ j.name) :
    (o.added.map Import.name).Nodup := by
  have hfresh := h.sound.fresh.sublist (Pass.distinct_sublist h.adds)
  rw [List.Nodup, List.pairwise_map]
  exact (hfresh.and hown).imp fun ⟨hfresh, hown⟩ => hfresh.elim hown id

/-- A name of the program that stays is not the new name of an import. -/
theorem mayClash (h : o.Ran program body) {x : Text} {i : Import} (hi : i ∈ o.added)
    (hx : o.state.renames.apply x = i.name) : o.MayClash program x i := by
  by_cases hown : i.binding = i.name
  · exact .own hown
  by_cases hrenamed : o.state.renames.apply x = x
  · have houtside := h.sound.outside i ((Pass.distinct_sublist h.adds).subset hi)
    exact .made fun hmem => houtside.resolve_left hown (hx ▸ hrenamed.symm ▸ hmem)
  · exact .renamed hrenamed

end Outcome.Ran

/-- The statements of a program after a pass are its imports and the statements
    that the pass keeps. No two imports have the same name, and no kept
    statement declares one of their names, if and only if imports that keep the
    name of their variable have other names than those before, and no kept
    statement declares the name of an import where it may. -/
theorem import_names_unique_iff {config : Config} {program : Node} {o : Outcome}
    (h : reconstruct config program = .ok o) :
    o.program.statements = .ok (Pass.splice o.added o.kept) ∧
      (((o.added.map Import.name).Nodup ∧
          ∀ n ∈ o.kept, ∀ x ∈ n.declaredNames, x ∉ o.added.map Import.name) ↔
        o.added.Pairwise (fun i j => j.binding = j.name → i.name ≠ j.name) ∧
          ∀ n ∈ o.walked, o.state.renames.inStatement n ∈ o.kept →
            ∀ x ∈ n.declaredNames, ∀ i ∈ o.added,
              o.MayClash program x i → o.state.renames.apply x ≠ i.name) := by
  obtain ⟨body, hran⟩ := reconstruct_ran h
  refine ⟨hran.program_eq ▸ Node.statements_withStatements hran.statements, ?_, ?_⟩
  · rintro ⟨hnodup, hdisjoint⟩
    constructor
    · refine List.Pairwise.imp ?_ (List.pairwise_map.1 hnodup)
      exact fun hne _ => hne
    · intro n hn hkept x hx i hi _ heq
      have hdeclared : o.state.renames.apply x ∈ (o.state.renames.inStatement n).declaredNames :=
        Renaming.declaredNames_inStatement _ _ ▸ List.mem_map_of_mem hx
      exact hdisjoint _ hkept _ hdeclared (heq ▸ List.mem_map_of_mem hi)
  · rintro ⟨hown, hclash⟩
    refine ⟨hran.nodup_added hown, fun n hn x hx hmem => ?_⟩
    obtain ⟨m, hm, rfl⟩ := hran.exists_of_mem_kept hn
    rw [Renaming.declaredNames_inStatement] at hx
    obtain ⟨y, hy, rfl⟩ := List.mem_map.1 hx
    obtain ⟨i, hi, heq⟩ := List.mem_map.1 hmem
    exact hclash m hm hn y hy i hi (hran.mayClash hi heq.symm) heq.symm

/-- `function f() { var _box = require("box"); } class Box {}` -/
def boxTaken : Node :=
  .program [namedFunction "f" [loading "_box" "box"],
    .classDecl (some (.identifier "Box")) none (.classBody [])]

/-- The name of a class is not taken again. -/
theorem import_names_unique_iff_boxTaken :
    ∃ o, reconstruct {} boxTaken = .ok o ∧ o.added.map Import.name = [Text.ofString "Box2"] ∧
      (o.added.map Import.name).Nodup ∧
      ∀ n ∈ o.kept, ∀ x ∈ n.declaredNames, x ∉ o.added.map Import.name := by
  let P (o : Outcome) : Prop := o.added.map Import.name = [Text.ofString "Box2"] ∧
    o.added.Pairwise (fun i j => j.binding = j.name → i.name ≠ j.name) ∧
      ∀ n ∈ o.walked, ∀ x ∈ n.declaredNames, ∀ i ∈ o.added, o.state.renames.apply x ≠ i.name
  have hP : ∃ o, reconstruct {} boxTaken = .ok o ∧ P o := exists_outcome (by decide +kernel)
  obtain ⟨o, ho, hnames, hown, happly⟩ := hP
  exact ⟨o, ho, hnames, (import_names_unique_iff ho).2.2
    ⟨hown, fun n hn _ x hx i hi _ => happly n hn x hx i hi⟩⟩

/-- `function f() { var A = require("a"); } function g() { var A = require("b");
    }` -/
def loadedTwice : Node :=
  .program [namedFunction "f" [loading "A" "a"], namedFunction "g" [loading "A" "b"]]

/-- Two modules are imported under the name of their variables. -/
theorem import_names_not_unique :
    ∃ o, reconstruct {} loadedTwice = .ok o ∧ ¬(o.added.map Import.name).Nodup :=
  exists_outcome (by decide +kernel)

end Resugar
