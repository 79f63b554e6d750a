import Resugar.Proofs.Class.Rebuilt

/-!
# The name of a class

The class that a factory makes gets the name of the variable, or under `new`
that of the constructor; if that name is used elsewhere, it gets one that
nothing uses (`Factory.MayName`). Which of these names it is does not matter for
the parts of the class (`Factory.sorted?_eq_called`), nor for whether there is a
class, and for the number of statements in its place.
-/

namespace Resugar

open Node List

/-- The names other than a given one, unless that is another given one. -/
def Vocabulary.avoiding (name allowed : Text) : Vocabulary where
  name x := x = name → x = allowed
  tag _ := True

namespace ClassNames

variable {names : ClassNames} {n s : Node}

/-- The same names, but the class is called like its constructor. -/
def plain (names : ClassNames) : ClassNames :=
  { names with className := names.ctorName }

/-- A tree that does not use the name of the class, unless that is the name of
    the constructor. -/
abbrev Avoids (names : ClassNames) (n : Node) : Prop :=
  n.Speaks (.avoiding names.className names.ctorName) true

theorem isClassRef_eq (h : names.Avoids n) : names.isClassRef n = names.plain.isClassRef n := by
  unfold isClassRef plain
  rcases hx : n.ungroup.identifierName? with _ | x
  · rfl
  · have hname : x = names.className → x = names.ctorName :=
      speaks_identifier.1 (identifierName?_eq_some.1 hx ▸ speaks_ungroup.2 h) rfl
    -- the name of the class counts only if it is that of the constructor as well
    by_cases hclass : x = names.className
    · simp [hname hclass]
    · simp [hclass]

theorem isPrototypeRef_eq (h : names.Avoids n) :
    names.isPrototypeRef n = names.plain.isPrototypeRef n := by
  have hn := speaks_ungroup.2 h
  unfold isPrototypeRef
  rcases hr : n.ungroup.receiver? with _ | receiver
  · rfl
  · have hreceiver : names.Avoids receiver := by
      obtain ⟨property, computed, o, heq⟩ := receiver?_eq_some.1 hr
      exact (speaks_member.1 (heq ▸ hn)).1
    rw [Option.any_some, Option.any_some, isClassRef_eq hreceiver]
    rfl

theorem isStaticReceiver?_eq (h : names.Avoids n) :
    names.isStaticReceiver? n = names.plain.isStaticReceiver? n := by
  unfold isStaticReceiver?
  rw [isPrototypeRef_eq h, isClassRef_eq h]

/-- An assignment makes the same member whatever the class is called, if its
    name is not used. -/
theorem assignedMember?_eq (h : names.Avoids s) :
    names.assignedMember? s = names.plain.assignedMember? s := by
  unfold assignedMember?
  split
  · rename_i e
    split
    · rename_i operator receiver property computed o right heq
      have hassignment := heq ▸ speaks_ungroup.2 (speaks_exprStmt.1 h)
      rw [isStaticReceiver?_eq (speaks_member.1 (speaks_assignment.1 hassignment).1).1]
    · rfl
  · rfl

/-- So does a call that registers members. -/
theorem registeredMembers?_eq (h : names.Avoids s) :
    names.registeredMembers? s = names.plain.registeredMembers? s := by
  unfold registeredMembers?
  split
  · rename_i e
    split
    · rename_i callee target ofPrototype rest o heq
      have hcall := heq ▸ speaks_ungroup.2 (speaks_exprStmt.1 h)
      rw [isClassRef_eq ((speaks_call.1 hcall).2 target mem_cons_self)]
    · rfl
  · rfl

theorem sortStatement_eq (h : names.Avoids s) :
    names.sortStatement s = names.plain.sortStatement s := by
  unfold sortStatement
  rw [assignedMember?_eq h, registeredMembers?_eq h]

theorem isCallCheck_eq (h : names.Avoids s) : names.isCallCheck s = names.plain.isCallCheck s := by
  unfold isCallCheck
  split
  · rename_i e
    split
    · rename_i callee target c o heq
      have hcall := heq ▸ speaks_ungroup.2 (speaks_exprStmt.1 h)
      rw [isClassRef_eq ((speaks_call.1 hcall).2 c (by simp))]
    · rfl
  · rfl

theorem sortStatements_eq {statements : List Node} (h : ∀ s ∈ statements, names.Avoids s) :
    statements.mapM names.sortStatement = statements.mapM names.plain.sortStatement := by
  induction statements with
  | nil => rfl
  | cons s statements ih =>
    rw [mapM_cons, mapM_cons, sortStatement_eq (h s mem_cons_self),
      ih fun t ht => h t (mem_cons_of_mem _ ht)]

/-- The constructor is the same whatever the class is called. -/
theorem draft?_eq {compiled : Node} (h : names.Avoids compiled)
    (heritage : Heritage) (params : List Node) :
    names.draft? heritage params compiled = names.plain.draft? heritage params compiled := by
  unfold draft?
  rcases hstatements : compiled.statements with fault | statements
  · rfl
  · have hfilter : statements.filter (!names.isCallCheck ·) =
        statements.filter (!names.plain.isCallCheck ·) := by
      refine filter_congr fun s hs => ?_
      rw [isCallCheck_eq (speaks_iff_fits.2
        (statements_fit hstatements (speaks_iff_fits.1 h) s hs))]
    simp only [bind, Except.bind, hfilter]

end ClassNames

/-! ## Factories -/

/-- The same class under another name, with its parts as they stand. -/
def SortedClass.called (c : SortedClass) (className : Text) : SortedClass :=
  { c with reference := { c.reference with names := { c.reference.names with className } } }

/-- Taking the superclass out leaves only statements that were there. -/
theorem Heritage.take_subset (ctorName : Text) (values : Table Node) (before : List Node) :
    (Heritage.take ctorName values before).2 ⊆ before := by
  unfold Heritage.take
  repeat' split
  all_goals simp

namespace Factory

variable {f : Factory} {name : Text}

/-- Under a name that it does not use, a factory makes the same class as under
    that of the constructor. -/
theorem sorted?_eq_called (hf : f.Fits (ruleOf (.avoiding name f.body.name))) :
    f.sorted? name = (f.sorted? f.body.name).map (Option.map (·.called name)) := by
  unfold sorted? reference?
  rcases f.values? with _ | values
  · rfl
  · let names : ClassNames := ⟨name, f.body.name, f.body.protoName⟩
    have hbefore : ∀ s ∈ (Heritage.take f.body.name values f.body.before).2, names.Avoids s :=
      fun s hs =>
      speaks_iff_fits.2 (hf.body.before s (Heritage.take_subset _ _ _ hs))
    have hafter : ∀ s ∈ f.body.after, names.Avoids s :=
      fun s hs => speaks_iff_fits.2 (hf.body.after s hs)
    have hcompiled : names.Avoids f.body.declaration.functionBody :=
      speaks_iff_fits.2 (functionBody_inherits (ruleOf_simple _).hereditary hf.body.declaration)
    -- the statements are sorted, and the constructor is read, as under the
    -- other name
    dsimp only [Option.map_some]
    rw [ClassNames.sortStatements_eq hbefore, ClassNames.sortStatements_eq hafter,
      ClassNames.draft?_eq hcompiled]
    dsimp only [names, ClassNames.plain]
    rcases mapM _ (Heritage.take f.body.name values f.body.before).2 with fault | sortedBefore
    · rfl
    rcases mapM _ f.body.after with fault | sortedAfter
    · rfl
    rcases ClassNames.draft? _ _ _ _ with fault | _ | draft <;> rfl

/-- The names that the class of a factory may get: the one that the factory
    says, or under `new` one that the factory does not use. -/
inductive MayName (f : Factory) (name : Text) : Prop
  | said (h : name = f.className)
  | free (hwrapped : f.encoding = .newWrapped) (hbinding : f.className ≠ f.binding)
    (hf : f.Fits (ruleOf (.avoiding name f.body.name)))

theorem MayName.eq_binding_iff (h : f.MayName name) :
    name = f.binding ↔ f.className = f.binding := by
  cases h with
  | said h => rw [h]
  | free hwrapped hbinding hf =>
    -- the variable stands in the factory, so a name that does not is another one
    have hname := used_ruleOf.1 (fits_identifier.1 hf.binding)
    refine iff_of_false (fun heq => hbinding ?_) hbinding
    rw [className, if_pos hwrapped]
    exact (hname heq.symm).symm

end Factory

/-- How many statements of the factory stay before and after a class. -/
def SortedClass.around (c : SortedClass) : Nat × Nat :=
  (c.leading.length, c.trailing.length)

namespace Factory

variable {f : Factory} {name : Text}

/-- How many statements stay around a class does not depend on its name. -/
theorem MayName.around_eq (h : f.MayName name) :
    (f.sorted? name).map (Option.map SortedClass.around) =
      (f.sorted? f.className).map (Option.map SortedClass.around) := by
  cases h with
  | said h => rw [h]
  | free hwrapped hbinding hf =>
    rw [sorted?_eq_called hf, className, if_pos hwrapped]
    rcases f.sorted? f.body.name with fault | _ | c <;> rfl

/-- How many statements stand for a class, with those of the factory that are
    kept around it. -/
def count? (f : Factory) (around : Nat × Nat) : Option Nat :=
  if f.encoding ≠ .newWrapped then some (around.1 + 1 + around.2)
  else if f.className = f.binding then
    if around.1 = 0 ∧ around.2 = 0 then some 1 else none
  else some (around.1 + 1 + around.2 + 1)

/-- Nor does how many stand for it. -/
theorem MayName.length_toStatements (h : f.MayName name) (kind : VariableKind) (c : RebuiltClass) :
    (f.toStatements kind name c).map length =
      f.count? (c.leading.length, c.trailing.length) := by
  unfold toStatements count?
  dsimp only
  simp only [h.eq_binding_iff]
  split
  · simp only [Option.map_some, length_append, length_singleton]
  · split
    · simp only [Bool.and_eq_true, List.isEmpty_iff, List.length_eq_zero_iff]
      split <;> rfl
    · simp only [Option.map_some, List.length_append, List.length_singleton]

/-- The rebuilt class has the same statements around it. -/
theorem rebuild_around {c : Option RebuiltClass} (h : f.rebuild name = .ok c) :
    (f.sorted? name).map (Option.map SortedClass.around) =
      .ok (c.map fun c => (c.leading.length, c.trailing.length)) := by
  obtain ⟨p, hp, h⟩ := bind_eq_ok.1 h
  rw [hp]
  rcases p with _ | p
  · cases h
    rfl
  · obtain ⟨c', hc', h⟩ := bind_eq_ok.1 h
    cases h
    obtain ⟨ctor, -, hc'⟩ := bind_eq_ok.1 hc'
    obtain ⟨normal, -, hc'⟩ := bind_eq_ok.1 hc'
    obtain ⟨members, -, hc'⟩ := bind_eq_ok.1 hc'
    cases hc'
    simp [Except.map, SortedClass.around]

/-- How many statements stand for the class of a factory, if it is one. -/
def statementCount? (f : Factory) : Option Nat :=
  (f.sorted? f.className).toOption.join.bind fun c => f.count? c.around

/-- The number of statements for a factory does not depend on the name. -/
theorem MayName.length_statements (h : f.MayName name) {c : Option RebuiltClass}
    (hc : f.rebuild name = .ok c) (kind : VariableKind) :
    (c.bind (f.toStatements kind name)).map length = f.statementCount? := by
  have haround := h.around_eq.symm.trans (rebuild_around hc)
  have hcount : f.statementCount? =
      (c.map fun c => (c.leading.length, c.trailing.length)).bind f.count? := by
    obtain ⟨sorted, hsorted, haround⟩ := map_eq_ok.1 haround
    rw [statementCount?, hsorted, ← haround]
    cases sorted <;> rfl
  rw [hcount]
  rcases c with _ | c
  · rfl
  · exact h.length_toStatements kind c

end Factory

end Resugar
