import Mathlib.Data.List.Perm.Basic
import Resugar.Markup.Props
import Resugar.Proofs.Class.SuperCall

/-!
# The names of class members

A class may have one constructor only, and no static member may be called
`prototype`. The members of a rebuilt class come from its constructor, from
assignments and from descriptors, and each of them brings the name that the
factory gives it. The names are not compared, so the class is not legal if the
factory gives one of these names too often.
-/

namespace Resugar

open List

/-- The name of a class member, which is not computed. -/
structure MemberTitle where
  isStatic : Bool
  name : Text
  deriving DecidableEq

namespace Node

/-- The name that the key of a member spells out. -/
def writtenKey? (key : Node) (computed : Bool) : Option Text :=
  if computed then none else key.keyName?

/-- The name of a member, if it is not computed. -/
def title? : Node → Option MemberTitle
  | method key _ _ isStatic computed => (key.writtenKey? computed).map (⟨isStatic, ·⟩)
  | classField key _ isStatic computed => (key.writtenKey? computed).map (⟨isStatic, ·⟩)
  | _ => none

/-- At most one member that is not static is called `constructor`, and no static
    one `prototype`. -/
def LegalTitles (members : List Node) : Prop :=
  (members.filterMap title?).count ⟨false, "constructor"⟩ ≤ 1 ∧
    ⟨true, "prototype"⟩ ∉ members.filterMap title?

instance (members : List Node) : Decidable (LegalTitles members) :=
  inferInstanceAs (Decidable (_ ∧ _))

/-! ## What the factory says -/

/-- The name of a property, where `a["b"]` spells it out like `a.b`. -/
def spelledName? (property : Node) (computed : Bool) : Option Text :=
  if computed then property.stringValue? else property.keyName?

/-- The names that a descriptor gives: its key, for each of its methods. -/
def describedTitles (d : Bool × Option Node) : List MemberTitle :=
  match d.2.map ungroup with
  | some (object entries) =>
    match descriptorParts? entries with
    | some parts =>
      ((parts.get? "key").bind (·.ungroup.stringValue?)).toList.flatMap fun key =>
        (["get", "set", "value"].filter fun part =>
          parts.has (Text.ofString part)).map fun _ => ⟨d.1, key⟩
    | none => []
  | _ => []

end Node

open Node

namespace ClassNames

variable (names : ClassNames)

/-- The name that an assignment gives to a member. -/
def assignedTitle? : Node → Option MemberTitle
  | .exprStmt e =>
    match e.ungroup with
    | .assignment _ (.member receiver property computed _) _ =>
      (names.isStaticReceiver? receiver).bind fun isStatic =>
        (property.spelledName? computed).map (⟨isStatic, ·⟩)
    | _ => none
  | _ => none

/-- The names of the members that a statement gives to the class. -/
def titles (s : Node) : List MemberTitle :=
  match names.sortStatement s with
  | .ok (.member _) => (names.assignedTitle? s).toList
  | .ok (.registered _) => s.registeredDescriptors.flatMap describedTitles
  | _ => []

end ClassNames

/-! ## The name of a member -/

namespace Node

theorem keyName?_stringKey (key : Text) : (stringKey key).keyName? = some key := by
  unfold stringKey
  split <;> rfl

/-- A member gets the name that its property spells out. -/
theorem writtenKey?_of_memberKey {property key : Node} {computed computed' : Bool}
    (h : memberKey property computed = (key, computed')) :
    key.writtenKey? computed' = property.spelledName? computed := by
  cases computed with
  | false =>
    cases h
    rfl
  | true =>
    rw [memberKey, if_pos rfl] at h
    rw [spelledName?, if_pos rfl]
    split at h <;> rename_i hstring <;> cases h <;> rw [hstring]
    · exact keyName?_stringKey _
    · rfl

theorem normalizeMember_title? {m m' : Node} (h : m.normalizeMember = .ok m') :
    m'.title? = m.title? := by
  unfold normalizeMember at h
  split at h
  · obtain ⟨statements, -, h⟩ := bind_eq_ok.1 h
    obtain ⟨-, -, h⟩ := bind_eq_ok.1 h
    cases h
    rfl
  · cases h
    rfl

end Node

namespace Reference

variable {r : Reference}

/-- A key that is not computed is no name of the factory. -/
theorem writtenKey?_resolveKey (computed : Bool) (key : Node) :
    (r.resolveKey computed key).writtenKey? computed = key.writtenKey? computed := by
  cases computed <;> rfl

theorem resolveMember_title? {m m' : Node} (h : r.resolveMember m = .ok m') :
    m'.title? = m.title? := by
  unfold resolveMember at h
  split at h
  · obtain ⟨body, -, h⟩ := bind_eq_ok.1 h
    cases h
    rw [title?, title?, writtenKey?_resolveKey]
  · cases h
    rw [title?, title?, writtenKey?_resolveKey]
  · cases h
    rfl

/-- A member keeps its name when it leaves the factory. -/
theorem rebuildMember_title? {m m' : Node} (h : r.rebuildMember m = .ok m') :
    m'.title? = m.title? := by
  obtain ⟨n, hn, h⟩ := bind_eq_ok.1 h
  exact (resolveMember_title? h).trans (normalizeMember_title? hn)

end Reference

/-! ## The names that a statement gives -/

namespace Node

/-- A part of a descriptor gives a name if it is there. -/
theorem descriptorMethod?_titles {parts : Table Node} {key : Node} {computed isStatic : Bool}
    {part : String} {kind : MethodKind} {ms : List Node}
    (h : descriptorMethod? parts key computed isStatic part kind = some ms) :
    ms.filterMap title? =
      if parts.has part then ((key.writtenKey? computed).map (MemberTitle.mk isStatic)).toList
      else [] := by
  obtain ⟨hnone, rfl⟩ | ⟨value, f, hvalue, -, rfl⟩ := descriptorMethod?_cases h
  · rw [Table.has, hnone]
    rfl
  · rw [Table.has, hvalue]
    rcases hkey : key.writtenKey? computed with _ | name <;> simp [title?, hkey]

/-- A descriptor gives its key to each of its methods. -/
theorem describedMethods?_titles {isStatic : Bool} {descriptor : Node} {ms : List Node}
    (h : describedMethods? isStatic descriptor = some ms) :
    ms.filterMap title? = describedTitles (isStatic, some descriptor) := by
  obtain ⟨entries, parts, keyNode, key, computed, getters, setters, values, hobject, hparts,
    hkeyNode, hkey, hgetters, hsetters, hvalues, rfl, -⟩ := describedMethods?_cases h
  rw [filterMap_append, filterMap_append, descriptorMethod?_titles hgetters,
    descriptorMethod?_titles hsetters, descriptorMethod?_titles hvalues,
    writtenKey?_of_memberKey hkey]
  unfold describedTitles
  simp only [Option.map_some, hobject, hparts, hkeyNode, Option.bind_some]
  -- without a string for its key, a descriptor gives no names
  rcases hstring : keyNode.ungroup.stringValue? with _ | key
  · simp [spelledName?, hstring]
  · cases hget : parts.has "get" <;> cases hset : parts.has "set" <;>
      cases hvalue : parts.has "value" <;> simp [spelledName?, hstring, hget, hset, hvalue]

end Node

namespace ClassNames

variable {names : ClassNames} {s : Node}

/-- An assignment gives the member the name of the property. -/
theorem assignedMember?_title {m : Node} (h : names.assignedMember? s = .ok (some m)) :
    m.title? = names.assignedTitle? s := by
  obtain ⟨e, receiver, property, computed, o, right, isStatic, rfl, he, hstatic, hm⟩ :=
    assignedMember?_cases h
  have hkey : (memberKey property computed).1.writtenKey? (memberKey property computed).2 =
      property.spelledName? computed := writtenKey?_of_memberKey rfl
  have htitle : names.assignedTitle? (.exprStmt e) =
      (property.spelledName? computed).map (⟨isStatic, ·⟩) := by
    simp only [assignedTitle?, he, hstatic, Option.bind_some]
  rw [htitle, ← hkey]
  obtain ⟨f, -, -, rfl⟩ | ⟨-, rfl, rfl⟩ := hm
  · rfl
  · rfl

/-- A call that registers members gives the names in its descriptors. -/
theorem registeredMembers?_titles {ms : List Node} (h : names.registeredMembers? s = some ms) :
    ms.filterMap title? = s.registeredDescriptors.flatMap describedTitles := by
  obtain ⟨runs, rfl, hruns⟩ := registeredMembers?_runs h
  clear h
  generalize s.registeredDescriptors = ds at hruns ⊢
  induction hruns with
  | nil => rfl
  | @cons d run ds runs hrun _ ih =>
    obtain ⟨descriptor, hd, hrun⟩ := Option.bind_eq_some_iff.1 hrun
    obtain ⟨isStatic, _⟩ := d
    cases hd
    rw [flatten_cons, filterMap_append, flatMap_cons,
      describedMethods?_titles hrun, ih]

/-- The members that a statement gives have the names that it says. -/
theorem sortStatement_titles {x : Sorted} (h : names.sortStatement s = .ok x) :
    (x.member?.toList ++ x.registeredMembers).filterMap title? = names.titles s := by
  unfold titles
  rw [h]
  obtain ⟨o, ho, h⟩ := bind_eq_ok.1 h
  rcases o with _ | m
  · dsimp only at h
    split at h <;> cases h
    · rename_i hregistered
      exact registeredMembers?_titles hregistered
    · rfl
  · cases h
    show [m].filterMap title? = (names.assignedTitle? s).toList
    rw [← assignedMember?_title ho]
    rcases htitle : m.title? with _ | title <;> simp [htitle]

end ClassNames

/-! ## The names of a class -/

/-- Lists whose items give the same give the same. -/
theorem flatMap_of_forall₂ {α β γ : Type} {R : α → β → Prop} {f : α → List γ} {g : β → List γ}
    {l : List α} {r : List β} (h : List.Forall₂ R l r) (hR : ∀ a b, R a b → g b = f a) :
    r.flatMap g = l.flatMap f := by
  induction h with
  | nil => rfl
  | cons hab _ ih => rw [flatMap_cons, flatMap_cons, hR _ _ hab, ih]

/-- The members of a sorted factory have the names that its statements give. -/
theorem Sorted.titles_perm {names : ClassNames} {statements : List Node} {sorted : List Sorted}
    (h : statements.mapM names.sortStatement = .ok sorted) :
    ((sorted.filterMap Sorted.member? ++
      sorted.flatMap Sorted.registeredMembers).filterMap title?).Perm
        (statements.flatMap names.titles) := by
  have htitles : sorted.flatMap
      (fun x => (x.member?.toList ++ x.registeredMembers).filterMap title?) =
      statements.flatMap names.titles :=
    flatMap_of_forall₂ (forall₂_of_mapM h) fun _ _ => ClassNames.sortStatement_titles
  -- what is assigned comes before what is registered, so only the order differs
  rw [← htitles, ← filterMap_flatMap, filterMap_eq_flatMap_toList Sorted.member? sorted]
  exact (flatMap_append_perm ..).filterMap title?

/-- The members of a class are its constructor, if it has one, and those that
    its statements name. -/
theorem SortedClass.finish_titles {p : SortedClass} {compiled : Node} {c : RebuiltClass}
    (h : p.finish compiled = .ok c) :
    ∃ ctor, p.draft.finish compiled = .ok ctor ∧
      c.members.filterMap title? = ctor.toList.map (fun _ => ⟨false, "constructor"⟩) ++
      p.members.filterMap title? := by
  obtain ⟨ctor, hctor, hmembers, -⟩ := finish_cases h
  refine ⟨ctor, hctor, ?_⟩
  -- members are rebuilt one by one, so their names come in the same order
  rw [filterMap_eq_flatMap_toList, flatMap_of_forall₂ hmembers fun m m' hm =>
    congrArg Option.toList (Reference.rebuildMember_title?
      hm), ← filterMap_eq_flatMap_toList, filterMap_append]
  rcases ctor with _ | m
  · rfl
  · obtain ⟨-, rfl⟩ := ConstructorDraft.finish_cases hctor
    rfl

/-- The names of the members of a class are legal exactly if the statements of
    its factory give the name `constructor` to at most one method, or to none if
    the class has a constructor already, and the name `prototype` to no static
    member. -/
theorem memberNames_legal_iff {f : Factory} {className : Text} {c : RebuiltClass}
    (h : f.rebuild className = .ok (some c)) :
    ∃ r before draft ctor, f.reference? className = some (r, before) ∧
      r.names.draft? r.heritage f.body.declaration.functionParams f.body.declaration.functionBody =
        .ok (some draft) ∧
      draft.finish f.body.declaration.functionBody = .ok ctor ∧
      (LegalTitles c.members ↔
        ctor.toList.length +
            ((before ++ f.body.after).flatMap r.names.titles).count ⟨false, "constructor"⟩ ≤ 1 ∧
          ⟨true, "prototype"⟩ ∉ (before ++ f.body.after).flatMap r.names.titles) := by
  obtain ⟨p, hp, hc⟩ := Factory.rebuild_cases h
  obtain ⟨before, sortedBefore, sortedAfter, hr, hbefore, hafter, hdraft, -, hmembers, -⟩ :=
    Factory.sorted?_cases hp
  obtain ⟨ctor, hctor, htitles⟩ := SortedClass.finish_titles hc
  refine ⟨p.reference, before, p.draft, ctor, hr, hdraft, hctor, ?_⟩
  have hsorted : (before ++ f.body.after).mapM p.reference.names.sortStatement =
      .ok (sortedBefore ++ sortedAfter) := by
    rw [mapM_append, hbefore, hafter]
    rfl
  have hperm := Sorted.titles_perm hsorted
  rw [← hmembers] at hperm
  rw [LegalTitles, htitles, count_append, hperm.count_eq,
    mem_append, hperm.mem_iff, not_or]
  have hprototype : (⟨true, "prototype"⟩ : MemberTitle) ∉ ctor.toList.map fun _ =>
      ⟨false, "constructor"⟩ := by
    simp
  have hconstructor : (ctor.toList.map fun _ => (⟨false, "constructor"⟩ : MemberTitle)).count
      ⟨false, "constructor"⟩ = ctor.toList.length := by
    cases ctor <;> rfl
  rw [hconstructor]
  exact and_congr_right fun _ => and_iff_right hprototype

/-- `receiver[key] = function () { return z; };` -/
def methodAssigned (receiver key : Text) : Node :=
  .exprStmt (.assignment "=" (.member (.identifier receiver)
    (.literal (.string key) none) true false)
    (.functionExpr none [] (.block [.returnStmt (some (.identifier "z"))]) false false))

/-- A factory whose constructor does nothing, with methods `constructor` and
    `prototype`, and a static method `constructor`. -/
def plainDog : Node :=
  dogDeclarator [] [] [] [methodAssigned "_proto" "constructor",
    methodAssigned "_proto" "prototype", methodAssigned "Dog" "constructor"] []

/-- The three names are legal, as the empty constructor is left out. -/
theorem memberNames_legal_iff_plainDog :
    ∃ f c, Factory.ofDeclarator? plainDog = .ok (some f) ∧ f.rebuild "Dog" = .ok (some c) ∧
      LegalTitles c.members ∧ c.members.length = 3 ∧
      ∃ r before draft ctor, f.reference? "Dog" = some (r, before) ∧
      r.names.draft? r.heritage f.body.declaration.functionParams f.body.declaration.functionBody =
        .ok (some draft) ∧
      draft.finish f.body.declaration.functionBody = .ok ctor ∧
      (LegalTitles c.members ↔
        ctor.toList.length +
            ((before ++ f.body.after).flatMap r.names.titles).count ⟨false, "constructor"⟩ ≤ 1 ∧
          ⟨true, "prototype"⟩ ∉ (before ++ f.body.after).flatMap r.names.titles) := by
  obtain ⟨f, c, hf, hc, hlegal, hlength⟩ : ∃ f c, Factory.ofDeclarator? plainDog = .ok (some f) ∧
      f.rebuild "Dog" = .ok (some c) ∧ LegalTitles c.members ∧ c.members.length = 3 :=
    exists_rebuilt (by decide +kernel)
  exact ⟨f, c, hf, hc, hlegal, hlength, memberNames_legal_iff hc⟩

/-- A factory whose constructor does `this.x = y`, with a method
    `constructor`. -/
def doubledDog : Node :=
  dogDeclarator [] [.exprStmt (.assignment "=" (.member .thisExpr (.identifier "x") false false)
    (.identifier "y"))] [] [methodAssigned "_proto" "constructor"] []

/-- A factory that gives the class another prototype:
    `Dog.prototype = base;`. -/
def adoptedDog : Node :=
  dogDeclarator [] [] [] [.exprStmt
    (.assignment "=" (.member (.identifier "Dog") (.identifier "prototype") false false)
      (.identifier "base"))] []

/-- A constructor and a method of that name make two members called
    `constructor`; and an assignment to the prototype makes a static field
    `prototype`. -/
theorem memberNames_illegal :
    (∃ f c, Factory.ofDeclarator? doubledDog = .ok (some f) ∧ f.rebuild "Dog" = .ok (some c) ∧
        (c.members.filterMap title?).count ⟨false, "constructor"⟩ = 2) ∧
      ∃ f c, Factory.ofDeclarator? adoptedDog = .ok (some f) ∧ f.rebuild "Dog" = .ok (some c) ∧
        ⟨true, "prototype"⟩ ∈ c.members.filterMap title? :=
  ⟨exists_rebuilt (by decide +kernel), exists_rebuilt (by decide +kernel)⟩

end Resugar
