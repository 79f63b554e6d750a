import Resugar.Concrete.Statement
import Resugar.Printer.Print
import Resugar.Proofs.Tree.Vocabulary

/-!
# What may stand where

Any node can stand below any other one, but not every tree can be read as a
program: a parameter is a name or a pattern, and so is what a declarator
declares; what is assigned to is a name, a member, or a pattern of such. The
*role* of a node says which of these places it has (`Role`), and a *rule* says
what may stand there (`Rule`). A tree fits a rule in a role if its root does,
and all that stands below it, in the roles that the root gives (`Node.Fits`).
-/

namespace Resugar

open List

/-! ## Roles -/

/-- What a pattern does with the names in it. -/
inductive Use where
  | bound
  | written
  deriving DecidableEq

/-- The place of a node in a tree. -/
inductive Role where
  | any
  | name
  /-- What is bound or written. -/
  | pattern (use : Use)
  /-- An entry of such an object pattern. -/
  | entry (use : Use)
  /-- What is written, in parentheses. -/
  | place
  /-- What is written by a loop over keys or values: a declaration, or as in an
      assignment. -/
  | head
  /-- A declarator there. -/
  | headDeclarator
  /-- The initializer of such a declarator. -/
  | headValue
  | unwalked
  deriving DecidableEq

namespace Node

def isEntry : Node → Bool
  | entry .. => true
  | _ => false

def isRestPattern : Node → Bool
  | restPattern .. => true
  | _ => false

/-- The roots of patterns. -/
def isPattern : Node → Bool
  | objectPattern .. => true
  | arrayPattern .. => true
  | defaultPattern .. => true
  | restPattern .. => true
  | _ => false

/-- Names and members. -/
def isNameOrMember : Node → Bool
  | identifier .. => true
  | member .. => true
  | _ => false

/-- The roots of names and members, in parentheses or not. -/
def isPlace : Node → Bool
  | identifier .. => true
  | member .. => true
  | parenthesized .. => true
  | _ => false

end Node

namespace Role

/-- The shape that a role asks for. -/
def shape : Role → Node → Bool
  | name, n => n.isIdentifier
  | pattern .bound, n => n.isIdentifier || n.isPattern
  | pattern .written, n => n.isPlace || n.isPattern
  | entry _, n => n.isEntry || n.isRestPattern
  | place, n => n.isPlace
  | head, n => n.isVarDecl || n.isPlace || n.isPattern
  | _, _ => true

/-- The role of what a pattern holds. -/
def inner : Role → Role
  | pattern use => pattern use
  | entry use => pattern use
  | head => pattern .written
  | _ => any

/-- The role of the entries of an object pattern. -/
def entries (role : Role) : Role :=
  match role.inner with
  | pattern use => entry use
  | _ => any

/-- The role of what parentheses hold. -/
def grouped : Role → Role
  | pattern .written => place
  | place => place
  | head => place
  | _ => any

/-- The roles of the nodes in the first fields of a node, where they may be
    others than `any`. -/
def fields (role : Role) : Node → List Role
  | .functionExpr .. => [name, pattern .bound]
  | .functionDecl .. => [name, pattern .bound]
  | .classExpr .. => [name]
  | .classDecl .. => [name]
  | .arrow .. => [pattern .bound]
  | .catchClause .. => [pattern .bound]
  | .assignment .. => [pattern .written]
  | .update .. => [pattern .written]
  | .forInStmt .. => [head]
  | .varDecl .. => [if role = head then headDeclarator else any]
  | .declarator .. => [pattern .bound, if role = headDeclarator then headValue else any]
  | .parenthesized .. => [role.grouped]
  | .objectPattern .. => [role.entries]
  | .arrayPattern .. => [role.inner]
  | .defaultPattern .. => [role.inner]
  | .restPattern .. => [role.inner]
  | .entry .. => [any, role.inner]
  | _ => []

/-- Whether what stands there is written. -/
def isWritten : Role → Bool
  | pattern .written => true
  | place => true
  | head => true
  | _ => false

/-- The role of a key, which is walked if it is computed. -/
def key (computed : Bool) : Role :=
  if computed then any else unwalked

/-- The role of the nodes in a field of a node. -/
def below (role : Role) (n : Node) (i : Nat) (walked : Bool) : Role :=
  if role = unwalked ∨ walked = false then unwalked else (role.fields n).getD i any

end Role

/-! ## Rules -/

/-- What the nodes of a tree may be. -/
structure Rule where
  used : Text → Bool := fun _ => true
  /-- Of these, the names that may be bound. -/
  bound : Text → Bool := fun _ => true
  written : Text → Bool := fun _ => true
  tag : Text → Bool := fun _ => true
  /-- Whether a declarator in the head of a loop may have an initializer. -/
  initialized : Bool := true
  /-- Whether a node has to have the shape that its role asks for. -/
  shaped : Bool := true

namespace Rule

/-- The rule for well-formed programs. -/
abbrev wellFormed : Rule := {}

/-- Whether a name may stand in a role. -/
def allows (R : Rule) (role : Role) (x : Text) : Bool :=
  R.used x && match role with
    | .name => R.bound x
    | .pattern .bound => R.bound x
    | .pattern .written => R.written x
    | .place => R.written x
    | .head => R.written x
    | _ => true

/-- Whether the root of a tree may stand in a role. -/
def admits (R : Rule) (role : Role) (n : Node) : Bool :=
  (match n with
    | .identifier x => role == .unwalked || R.allows role x
    | .element name _ _ _ => R.tag name
    | _ => true) &&
    ((!R.shaped || role.shape n) && (R.initialized || role != .headValue))

/-- The rule for trees in which other nodes take the place of names: a name is
    bound only if a name takes its place, and written only if a name or a member
    does. -/
def keeping (σ : Text → Option Node) : Rule where
  bound x := (σ x).all Node.isIdentifier
  written x := (σ x).all Node.isNameOrMember
  shaped := false

/-- The rule that asks for all that two rules do. -/
def meet (R R' : Rule) : Rule where
  used x := R.used x && R'.used x
  bound x := R.bound x && R'.bound x
  written x := R.written x && R'.written x
  tag t := R.tag t && R'.tag t
  initialized := R.initialized && R'.initialized
  shaped := R.shaped || R'.shaped

end Rule

namespace Node

/-- Whether a tree fits a rule in a role. -/
def conforms (R : Rule) : Node → Role → Bool :=
  fold fun n fields role => R.admits role n &&
    fields.zipIdx.all fun (f, i) => f.slot.nodes.all fun c => c.2 (role.below n i f.walked)

/-- A tree fits a rule in a role. -/
def Fits (R : Rule) (role : Role) (n : Node) : Prop :=
  n.conforms R role = true

instance (R : Rule) (role : Role) (n : Node) : Decidable (n.Fits R role) :=
  inferInstanceAs (Decidable (_ = true))

/-- A tree in which only names and patterns are bound, and only such and members
    are written. -/
abbrev WellFormed (n : Node) : Prop :=
  n.Fits .wellFormed .any

/-- What stands below the root of a tree fits a rule. -/
def FieldsFit (R : Rule) (role : Role) (n : Node) : Prop :=
  ∀ p ∈ n.fields.zipIdx, ∀ c ∈ p.1.slot.nodes, c.Fits R (role.below n p.2 p.1.walked)

variable {R R' : Rule} {role : Role} {n : Node}

theorem fits_iff : n.Fits R role ↔ R.admits role n = true ∧ n.FieldsFit R role := by
  rw [Fits, conforms, fold_eq, Bool.and_eq_true, all_eq_true]
  refine and_congr_right' ?_
  rw [zipIdx_map, forall_mem_map]
  refine forall₂_congr fun p _ => ?_
  simp only [Prod.map, Field.map, Slot.nodes_map, all_map,
    all_eq_true, Function.comp_apply]
  rfl

/-- What stands below a root fits node by node, by the role of its field. -/
theorem fieldsFit_iff : n.FieldsFit R role ↔ ∀ (i : Nat) (f : Field Node), n.fields[i]? = some f →
    ∀ c ∈ f.slot.nodes, c.Fits R (role.below n i f.walked) := by
  simp only [FieldsFit, Prod.forall, mem_zipIdx_iff_getElem?]
  exact forall_comm

end Node

namespace Role

variable {role : Role}

theorem below_unwalked (role : Role) (n : Node) (i : Nat) : role.below n i false = unwalked := by
  rw [below, if_pos (.inr rfl)]

theorem unwalked_below (n : Node) (i : Nat) (walked : Bool) :
    unwalked.below n i walked = unwalked := by
  rw [below, if_pos (.inl rfl)]

theorem below_walked (hrole : role ≠ unwalked) (n : Node) (i : Nat) :
    role.below n i true = (role.fields n).getD i any := by
  rw [below, if_neg (by simpa using hrole)]

theorem inner_ne_unwalked (role : Role) : role.inner ≠ unwalked := by
  cases role <;> exact Role.noConfusion

theorem fields_ne_unwalked (role : Role) (n : Node) : ∀ r ∈ role.fields n, r ≠ unwalked := by
  have hinner := role.inner_ne_unwalked
  have hentries : role.entries ≠ unwalked := by
    unfold entries
    split <;> exact Role.noConfusion
  have hgrouped : role.grouped ≠ unwalked := by
    unfold grouped
    split <;> exact Role.noConfusion
  cases n <;> simp [fields, hinner, hentries, hgrouped] <;> split <;> simp

/-- A walk that comes to a node comes to its walked fields. -/
theorem below_ne_unwalked (hrole : role ≠ unwalked) (n : Node) (i : Nat) :
    role.below n i true ≠ unwalked := by
  rw [below_walked hrole, getD_eq_getElem?_getD]
  cases hi : (role.fields n)[i]? with
  | none => exact Role.noConfusion
  | some r => exact fields_ne_unwalked role n r (mem_of_getElem? hi)

/-- The roles below a node do not depend on what its fields hold. -/
theorem below_setSlots (role : Role) (s : Nat → Slot Node) (n : Node) (i : Nat) (walked : Bool) :
    role.below (n.setSlots s) i walked = role.below n i walked := by
  have hfields : role.fields (n.setSlots s) = role.fields n := by
    cases n <;> rfl
  rw [below, below, hfields]

/-- The shape of a node does not depend on what its fields hold. -/
theorem shape_setSlots (role : Role) (s : Nat → Slot Node) (n : Node) :
    role.shape (n.setSlots s) = role.shape n := by
  have hidentifier : (n.setSlots s).isIdentifier = n.isIdentifier := by cases n <;> rfl
  have hpattern : (n.setSlots s).isPattern = n.isPattern := by cases n <;> rfl
  have hrest : (n.setSlots s).isRestPattern = n.isRestPattern := by cases n <;> rfl
  have hentry : (n.setSlots s).isEntry = n.isEntry := by cases n <;> rfl
  have hplace : (n.setSlots s).isPlace = n.isPlace := by cases n <;> rfl
  have hvarDecl : (n.setSlots s).isVarDecl = n.isVarDecl := by cases n <;> rfl
  cases role with
  | pattern use => cases use <;> simp only [shape, hidentifier, hplace, hpattern]
  | _ => simp only [shape, hidentifier, hpattern, hrest, hentry, hplace, hvarDecl]

/-- Where a node stands for anything, the nodes below it have the roles that the
    node itself gives. -/
theorem any_fields (role : Role) (n : Node) (i : Nat) :
    (any.fields n).getD i any = (role.fields n).getD i any ∨ (any.fields n).getD i any = any := by
  cases n with
  | varDecl | parenthesized | objectPattern | arrayPattern | defaultPattern | restPattern =>
    rcases i with _ | i <;> exact .inr rfl
  | entry | declarator =>
    rcases i with _ | _ | i
    · exact .inl rfl
    · exact .inr rfl
    · exact .inr rfl
  | _ => exact .inl rfl

end Role

namespace Rule

variable {R R' : Rule} {role : Role} {n : Node}

/-- Whether a root may stand in a role does not depend on its fields. -/
theorem admits_setSlots (R : Rule) (role : Role) (s : Nat → Slot Node) (n : Node) :
    R.admits role (n.setSlots s) = R.admits role n := by
  unfold admits
  rw [Role.shape_setSlots]
  congr 1
  cases n <;> rfl

/-- A rule that asks for no more shapes, and for no other elements. -/
structure Looser (R R' : Rule) : Prop where
  tag : ∀ t, R.tag t = true → R'.tag t = true
  initialized : R.initialized = true → R'.initialized = true
  shaped : R'.shaped = true → R.shaped = true

theorem Looser.refl (R : Rule) : R.Looser R :=
  ⟨fun _ => id, id, id⟩

/-- The shapes that a rule asks for, a looser one does not forbid. -/
theorem Looser.shape (h : R.Looser R')
    (hshape : ((!R.shaped || role.shape n) && (R.initialized || role != .headValue)) = true) :
    ((!R'.shaped || role.shape n) && (R'.initialized || role != .headValue)) = true := by
  simp only [Bool.and_eq_true, Bool.or_eq_true, Bool.not_eq_true'] at hshape ⊢
  refine ⟨hshape.1.imp_left fun hR => ?_, hshape.2.imp_left h.initialized⟩
  rcases hshaped : R'.shaped with _ | _
  · rfl
  · exact absurd (h.shaped hshaped) (by simp [hR])

/-- Only a name can be refused by a looser rule. -/
theorem Looser.admits (h : R.Looser R') (hn : n.identifierName? = none)
    (hadmits : R.admits role n = true) : R'.admits role n = true := by
  obtain ⟨hname, hshape⟩ := Bool.and_eq_true_iff.1 hadmits
  refine Bool.and_eq_true_iff.2 ⟨?_, h.shape hshape⟩
  split
  · cases hn
  · exact h.tag _ hname
  · rfl

/-- A rule that allows all that another one does. -/
structure Le (R R' : Rule) : Prop extends R.Looser R' where
  used : ∀ x, R.used x = true → R'.used x = true
  bound : ∀ x, R.bound x = true → R'.bound x = true
  written : ∀ x, R.written x = true → R'.written x = true

theorem Le.refl (R : Rule) : R.Le R :=
  ⟨.refl R, fun _ => id, fun _ => id, fun _ => id⟩

theorem meet_le (R R' : Rule) : (R.meet R').Le R where
  tag _ h := (Bool.and_eq_true_iff.1 h).1
  initialized h := (Bool.and_eq_true_iff.1 h).1
  shaped h := Bool.or_eq_true_iff.2 (.inl h)
  used _ h := (Bool.and_eq_true_iff.1 h).1
  bound _ h := (Bool.and_eq_true_iff.1 h).1
  written _ h := (Bool.and_eq_true_iff.1 h).1

theorem meet_le_right (R R' : Rule) : (R.meet R').Le R' where
  tag _ h := (Bool.and_eq_true_iff.1 h).2
  initialized h := (Bool.and_eq_true_iff.1 h).2
  shaped h := Bool.or_eq_true_iff.2 (.inr h)
  used _ h := (Bool.and_eq_true_iff.1 h).2
  bound _ h := (Bool.and_eq_true_iff.1 h).2
  written _ h := (Bool.and_eq_true_iff.1 h).2

theorem Le.allows (h : R.Le R') {x : Text} (hallows : R.allows role x = true) :
    R'.allows role x = true := by
  obtain ⟨hused, hrole⟩ := Bool.and_eq_true_iff.1 hallows
  refine Bool.and_eq_true_iff.2 ⟨h.used x hused, ?_⟩
  split <;> first | exact h.bound x hrole | exact h.written x hrole | rfl

theorem Le.admits (h : R.Le R') (hadmits : R.admits role n = true) : R'.admits role n = true := by
  obtain ⟨hname, hshape⟩ := Bool.and_eq_true_iff.1 hadmits
  refine Bool.and_eq_true_iff.2 ⟨?_, h.shape hshape⟩
  split
  · exact Bool.or_eq_true_iff.2 ((Bool.or_eq_true_iff.1 hname).imp_right h.allows)
  · exact h.tag _ hname
  · rfl

/-- A root that two rules admit is admitted by their meet. -/
theorem meet_admits (h : R.admits role n = true) (h' : R'.admits role n = true) :
    (R.meet R').admits role n = true := by
  have hallows {x : Text} (hx : R.allows role x = true) (hx' : R'.allows role x = true) :
      (R.meet R').allows role x = true := by
    simp only [allows, meet, Bool.and_eq_true] at hx hx' ⊢
    refine ⟨⟨hx.1, hx'.1⟩, ?_⟩
    split <;> simp_all
  obtain ⟨hname, hshape⟩ := Bool.and_eq_true_iff.1 h
  obtain ⟨hname', hshape'⟩ := Bool.and_eq_true_iff.1 h'
  refine Bool.and_eq_true_iff.2 ⟨?_, ?_⟩
  · cases n with
    | identifier x =>
      simp only [Bool.or_eq_true] at hname hname' ⊢
      exact hname.elim .inl fun hx => hname'.elim .inl fun hx' => .inr (hallows hx hx')
    | element => exact Bool.and_eq_true_iff.2 ⟨hname, hname'⟩
    | _ => rfl
  · simp only [meet, Bool.and_eq_true, Bool.or_eq_true, Bool.not_eq_true',
      Bool.or_eq_false_iff] at hshape hshape' ⊢
    refine ⟨?_, ?_⟩
    · exact hshape.1.elim (fun hR => hshape'.1.imp_left fun hR' => ⟨hR, hR'⟩) .inr
    · exact hshape.2.elim (fun hR => hshape'.2.imp_left fun hR' => ⟨hR, hR'⟩) .inr

/-- Where all names may be bound and written, a name may stand in all roles that
    it may be used in. -/
theorem allows_eq_used (h : ∀ x, R.bound x = true ∧ R.written x = true) (role : Role) (x : Text) :
    R.allows role x = R.used x := by
  unfold allows
  split <;> simp [h]

/-- By an *even* rule, what can stand anywhere can stand wherever no role asks
    for a node. -/
structure Even (R : Rule) : Prop where
  initialized : R.initialized = true
  names : R.shaped = false → ∀ x, R.bound x = true ∧ R.written x = true

/-- By a *simple* rule, the names that are used may be bound and written. -/
structure Simple (R : Rule) : Prop where
  initialized : R.initialized = true
  names : ∀ x, R.bound x = true ∧ R.written x = true

theorem Simple.even (h : R.Simple) : R.Even :=
  ⟨h.initialized, fun _ => h.names⟩

theorem wellFormed_simple : wellFormed.Simple :=
  ⟨rfl, fun _ => ⟨rfl, rfl⟩⟩

/-- Where any node may stand, a rule asks only about names and elements. -/
theorem admits_any (R : Rule) (hi : n.identifierName? = none) (he : n.elementName? = none) :
    R.admits .any n = true := by
  unfold Node.identifierName? at hi
  unfold Node.elementName? at he
  unfold admits
  split <;> simp_all [Role.shape]

end Rule

namespace Node

variable {R R' : Rule} {role : Role} {n receiver property binding : Node} {x : Text}
  {o computed : Bool} {f : Bool → Node → Option Node} {σ : Text → Option Node} {V : Vocabulary}

/-! ## Roles of trees -/

/-- What fits in some place where a walk comes, fits in a place for any node. -/
theorem Fits.any (h : n.Fits R role) (hrole : role ≠ .unwalked) : n.Fits R .any := by
  induction n using induct generalizing role with
  | h n ih =>
    obtain ⟨hroot, hfields⟩ := fits_iff.1 h
    refine fits_iff.2 ⟨?_, fieldsFit_iff.2 fun i f hf c hc => ?_⟩
    · unfold Rule.admits at hroot ⊢
      split <;> simp_all [Role.shape, Rule.allows]
    · have hc' := fieldsFit_iff.1 hfields i f hf c hc
      rcases hw : f.walked with _ | _
      · rw [hw, Role.below_unwalked] at hc'
        rwa [Role.below_unwalked]
      · rw [hw] at hc'
        rw [Role.below_walked Role.noConfusion]
        rcases role.any_fields n i with heq | heq
        · rwa [heq, ← Role.below_walked hrole]
        · rw [heq]
          exact ih c (mem_parts (mem_of_getElem? hf) hc) hc' (Role.below_ne_unwalked hrole n i)

/-- The walked nodes of a tree fit its rule. -/
theorem Fits.of_mem_walk {c : Node} (h : n.Fits R role)
    (hrole : role ≠ .unwalked) (hc : c ∈ n.walk) : c.Fits R .any := by
  induction n using induct generalizing role with
  | h n ih =>
    rcases mem_walk_iff.1 hc with rfl | ⟨m, hm, hc⟩
    · exact h.any hrole
    · obtain ⟨f, hf, hwalked, hm⟩ := mem_children_iff.1 hm
      obtain ⟨i, hi⟩ := mem_iff_getElem?.1 hf
      have hfit := fieldsFit_iff.1 (fits_iff.1 h).2 i f hi m hm
      rw [hwalked] at hfit
      exact ih m (mem_parts hf hm) hfit (Role.below_ne_unwalked hrole n i) hc

/-- Where no shapes count, and all names are free, all places are the same. -/
theorem Fits.of_even (hR : R.Even) (hshaped : R.shaped = false) (h : n.Fits R .any) (role : Role) :
    n.Fits R role := by
  induction n using induct generalizing role with
  | h n ih =>
    obtain ⟨hroot, hfields⟩ := fits_iff.1 h
    refine fits_iff.2 ⟨?_, fieldsFit_iff.2 fun i f hf c hc => ?_⟩
    · have hallows := Rule.allows_eq_used (hR.names hshaped)
      have hinitialized := hR.initialized
      unfold Rule.admits at hroot ⊢
      split <;> simp_all
    · have hc' := fieldsFit_iff.1 hfields i f hf c hc
      rcases hw : f.walked with _ | _
      · rw [hw, Role.below_unwalked] at hc'
        rwa [Role.below_unwalked]
      · refine ih c (mem_parts (mem_of_getElem? hf) hc) (hc'.any ?_) _
        rw [hw]
        exact Role.below_ne_unwalked Role.noConfusion n i

/-- Other nodes can take the place of those below the root. A field that gets
    none keeps its own. -/
theorem fieldsFit_withSlots {slots : List (Slot Node)}
    (hgiven : ∀ i g, n.fields[i]? = some g → ∀ c ∈ (slots.getD i (.single none)).nodes,
      c.Fits R (role.below n i g.walked))
    (hkept : ∀ i g c, n.fields[i]? = some g → g.slot = .single (some c) →
      (slots.getD i (.single none)).nodes = [] → c.Fits R (role.below n i g.walked)) :
    (n.withSlots slots).FieldsFit R role := by
  refine fieldsFit_iff.2 fun i f hf c hc => ?_
  obtain ⟨g, hg, hw, hkeeps⟩ := fields_setSlots hf
  rw [hw, withSlots, Role.below_setSlots]
  rcases hkeeps c hc with hc | ⟨hslot, hnone⟩
  · exact hgiven i g hg c hc
  · exact hkept i g c hg hslot hnone

/-! ## Kinds of nodes -/

@[simp]
theorem fits_identifier : (identifier x).Fits R .any ↔ R.used x = true := by
  rw [fits_iff]
  simp [FieldsFit, Rule.admits, Rule.allows, Role.shape]

theorem fits_identifier_iff : (identifier x).Fits R role ↔ R.admits role (identifier x) = true := by
  rw [fits_iff]
  exact and_iff_left nofun

/-- A name that may be used and bound can name a function or a class. -/
theorem fits_identifier_name (h : R.used x = true) (hbound : R.bound x = true) :
    (identifier x).Fits R .name := by
  rw [fits_identifier_iff]
  simp [Rule.admits, Rule.allows, Role.shape, isIdentifier, h, hbound]

/-- A name that may be used and bound can be a parameter or be declared. -/
theorem fits_identifier_bound (h : R.used x = true) (hbound : R.bound x = true) :
    (identifier x).Fits R (.pattern .bound) := by
  rw [fits_identifier_iff]
  simp [Rule.admits, Rule.allows, Role.shape, isIdentifier, h, hbound]

@[simp]
theorem fits_identifier_unwalked : (identifier x).Fits R .unwalked := by
  rw [fits_identifier_iff]
  simp [Rule.admits, Role.shape]

@[simp]
theorem fits_element {name : Text} {attributes children : List Node} {selfClosing : Bool} :
    (element name attributes children selfClosing).Fits R .any ↔
      R.tag name = true ∧ (∀ a ∈ attributes, a.Fits R .any) ∧ ∀ a ∈ children, a.Fits R .any := by
  rw [fits_iff]
  simp [FieldsFit, Field.list, Slot.nodes, Role.below, Role.fields, Rule.admits, Role.shape]

/-- A node of any other kind fits anywhere if the nodes below it fit. -/
theorem fits_any_iff (hi : n.identifierName? = none) (he : n.elementName? = none) :
    n.Fits R .any ↔ n.FieldsFit R .any := by
  rw [fits_iff, R.admits_any hi he]
  simp

@[simp]
theorem fits_literal {value : Value} {spelling : Option Text} :
    (literal value spelling).Fits R .any :=
  (fits_any_iff rfl rfl).2 nofun

@[simp]
theorem fits_literal_unwalked {value : Value} {spelling : Option Text} :
    (literal value spelling).Fits R .unwalked := by
  rw [fits_iff]
  simp [FieldsFit, Rule.admits, Role.shape]

@[simp]
theorem fits_thisExpr : thisExpr.Fits R .any :=
  (fits_any_iff rfl rfl).2 nofun

@[simp]
theorem fits_markupText {value : Text} : (markupText value).Fits R .any :=
  (fits_any_iff rfl rfl).2 nofun

section Kinds

attribute [local simp] FieldsFit Field.single Field.list Slot.nodes Role.below Role.fields
  Role.grouped Role.key

@[simp]
theorem fits_conditional {test consequent alternate : Node} :
    (conditional test consequent alternate).Fits R .any ↔
      test.Fits R .any ∧ consequent.Fits R .any ∧ alternate.Fits R .any := by
  rw [fits_any_iff rfl rfl]
  simp

/-- A name that may be used and written can stand where that is done. -/
theorem fits_identifier_written (hrole : role.isWritten = true) (h : R.used x = true)
    (hwritten : R.written x = true) : (identifier x).Fits R role := by
  rw [fits_identifier_iff]
  unfold Role.isWritten at hrole
  split at hrole <;> simp_all [Rule.admits, Rule.allows, Role.shape, isPlace]

/-- A member can be written wherever it can stand. -/
theorem fits_member_written (hrole : role.isWritten = true) :
    (member receiver property computed o).Fits R role ↔
      (member receiver property computed o).Fits R .any := by
  rw [fits_iff, fits_iff]
  unfold Role.isWritten at hrole
  split at hrole <;> simp_all [FieldsFit, Role.below, Role.fields, Rule.admits, Role.shape, isPlace]

@[simp]
theorem fits_namedAttribute {name : Text} {value : Option Node} :
    (namedAttribute name value).Fits R .any ↔ ∀ a ∈ value, a.Fits R .any := by
  rw [fits_any_iff rfl rfl]
  simp

@[simp]
theorem fits_spreadAttribute {argument : Node} :
    (spreadAttribute argument).Fits R .any ↔ argument.Fits R .any := by
  rw [fits_any_iff rfl rfl]
  simp

@[simp]
theorem fits_container {expression : Node} :
    (container expression).Fits R .any ↔ expression.Fits R .any := by
  rw [fits_any_iff rfl rfl]
  simp

@[simp]
theorem fits_importDefault : (importDefault binding).Fits R .any ↔ binding.Fits R .any := by
  rw [fits_any_iff rfl rfl]
  simp

@[simp]
theorem fits_importNamespace : (importNamespace binding).Fits R .any ↔ binding.Fits R .any := by
  rw [fits_any_iff rfl rfl]
  simp

/-- No walk comes to the source of an import. -/
@[simp]
theorem fits_importDecl {specifiers : List Node} {source : Node} :
    (importDecl specifiers source).Fits R .any ↔ (∀ a ∈ specifiers, a.Fits R .any) ∧
      source.Fits R .unwalked := by
  rw [fits_any_iff rfl rfl]
  simp

/-- No walk comes to the name that an export has outside. -/
@[simp]
theorem fits_exportName {exported : Node} :
    (exportName binding exported).Fits R .any ↔
      binding.Fits R .any ∧ exported.Fits R .unwalked := by
  rw [fits_any_iff rfl rfl]
  simp

@[simp]
theorem fits_exportNamed {declaration : Option Node} {specifiers : List Node}
    {source : Option Node} :
    (exportNamed declaration specifiers source).Fits R .any ↔ (∀ a ∈ declaration, a.Fits R .any) ∧
      (∀ a ∈ specifiers, a.Fits R .any) ∧ ∀ a ∈ source, a.Fits R .unwalked := by
  rw [fits_any_iff rfl rfl]
  simp

@[simp]
theorem fits_exportDefault {declaration : Node} :
    (exportDefault declaration).Fits R .any ↔ declaration.Fits R .any := by
  rw [fits_any_iff rfl rfl]
  simp

end Kinds

/-! ## Replacing -/

/-- Where no walk comes, a rule asks only about the names of elements. -/
theorem Fits.unwalked_mono (h : n.Fits R .unwalked) (htag : ∀ t, R.tag t = true → R'.tag t = true) :
    n.Fits R' .unwalked := by
  induction n using induct with
  | h n ih =>
    obtain ⟨hroot, hfields⟩ := fits_iff.1 h
    refine fits_iff.2 ⟨?_, fieldsFit_iff.2 fun i f hf c hc => ?_⟩
    · unfold Rule.admits at hroot ⊢
      split <;> simp_all [Role.shape]
    · have hc' := fieldsFit_iff.1 hfields i f hf c hc
      rw [Role.unwalked_below] at hc' ⊢
      exact ih c (mem_parts (mem_of_getElem? hf) hc) hc'

/-- A change of walked nodes below the root may lead to another rule. -/
theorem fieldsFit_map {g : Node → Node} (htag : ∀ t, R.tag t = true → R'.tag t = true)
    (hg : ∀ c ∈ n.parts, ∀ role, role ≠ .unwalked → c.Fits R role → (g c).Fits R' role)
    (h : n.FieldsFit R role) (hrole : role ≠ .unwalked) :
    (n.withSlots (n.fields.map fun f =>
      if f.walked then f.slot.map g else f.slot)).FieldsFit R' role := by
  refine fieldsFit_iff.2 fun i f hf c hc => ?_
  rw [fields_withSlots_map, getElem?_map] at hf
  obtain ⟨f', hf', rfl⟩ := Option.map_eq_some_iff.1 hf
  have hfit := fieldsFit_iff.1 h i f' hf'
  rw [withSlots, Role.below_setSlots]
  dsimp only at hc ⊢
  rcases hw : f'.walked with _ | _
  · rw [hw, Role.below_unwalked] at hfit
    rw [hw] at hc
    rw [Role.below_unwalked]
    exact (hfit c hc).unwalked_mono htag
  · rw [hw, if_pos rfl, Slot.nodes_map] at hc
    obtain ⟨c', hc', rfl⟩ := mem_map.1 hc
    rw [hw] at hfit
    exact hg c' (mem_parts (mem_of_getElem? hf') hc') _
      (Role.below_ne_unwalked hrole n i) (hfit c' hc')

/-- Replacements may lead from one rule to another, if they do for one node,
    over nodes that are replaced. -/
theorem fits_replaceAll (htag : ∀ t, R.tag t = true → R'.tag t = true)
    (hf : ∀ nested role m, role ≠ .unwalked → R.admits role m = true → m.FieldsFit R' role →
      ((f nested m).getD m).Fits R' role) (h : n.Fits R role) (hrole : role ≠ .unwalked)
    (nested : Bool) : (n.replaceAll f nested).Fits R' role := by
  induction n using induct generalizing role nested with
  | h n ih =>
    obtain ⟨hroot, hfields⟩ := fits_iff.1 h
    rw [replaceAll_eq]
    refine hf nested role _ hrole ((R.admits_setSlots role _ n).trans hroot) ?_
    exact fieldsFit_map htag (fun c hc role hrole hfit => ih c hc hfit hrole _) hfields hrole

/-- So may replacements below the root. -/
theorem fits_replaceBelow (htag : ∀ t, R.tag t = true → R'.tag t = true)
    (hf : ∀ nested role m, role ≠ .unwalked → R.admits role m = true → m.FieldsFit R' role →
      ((f nested m).getD m).Fits R' role) (hroot : R'.admits role n = true)
    (hfields : n.FieldsFit R role) (hrole : role ≠ .unwalked) :
    (n.replaceBelow f).Fits R' role := by
  rw [fits_iff, replaceBelow, withSlots, Rule.admits_setSlots]
  refine ⟨hroot, ?_⟩
  exact fieldsFit_map htag (fun c _ role hrole hfit =>
    fits_replaceAll htag hf hfit hrole _) hfields hrole

/-- So may replacements that can fail. -/
theorem fits_replaceAllM {f : Bool → Node → Except Fault (Option Node)}
    (htag : ∀ t, R.tag t = true → R'.tag t = true)
    (hf : ∀ nested role m o, role ≠ .unwalked → R.admits role m = true → m.FieldsFit R' role →
      f nested m = .ok o → (o.getD m).Fits R' role) (h : n.Fits R role) (hrole : role ≠ .unwalked)
      {nested : Bool} {r : Node} (hr : n.replaceAllM f nested = .ok r) : r.Fits R' role := by
  induction n using induct generalizing role nested r with
  | h n ih =>
    obtain ⟨hroot, hfields⟩ := fits_iff.1 h
    rw [replaceAllM_eq] at hr
    obtain ⟨slots, hslots, hr⟩ := bind_eq_ok.1 hr
    obtain ⟨o, ho, hr⟩ := bind_eq_ok.1 hr
    cases hr
    refine hf nested role _ o hrole ((R.admits_setSlots role _ n).trans hroot)
      (fieldsFit_withSlots ?_ ?_) ho
    · intro i g hg c' hc'
      have hfit := fieldsFit_iff.1 hfields i g hg
      obtain ⟨s, hs, hgs⟩ := getElem?_of_mapM hslots hg
      rw [getD_eq_getElem?_getD, hs] at hc'
      obtain ⟨c, hc, hcc'⟩ := Slot.mem_of_mapM hgs hc'
      rcases hw : g.walked with _ | _
      · -- what is not walked stays as it is
        rw [hw] at hcc'
        cases hcc'
        rw [hw, Role.below_unwalked] at hfit
        rw [Role.below_unwalked]
        exact (hfit c' hc).unwalked_mono htag
      · rw [hw] at hfit hcc'
        exact ih c (mem_parts (mem_of_getElem? hg) hc) (hfit c hc)
          (Role.below_ne_unwalked hrole n i) hcc'
    · intro i g c hg hslot hnone
      obtain ⟨s, hs, hgs⟩ := getElem?_of_mapM hslots hg
      rw [getD_eq_getElem?_getD, hs] at hnone
      exact absurd hnone (Slot.nodes_ne_nil_of_mapM hgs hslot)

theorem Fits.meet (h : n.Fits R role) (h' : n.Fits R' role) : n.Fits (R.meet R') role := by
  induction n using induct generalizing role with
  | h n ih =>
    obtain ⟨hroot, hfields⟩ := fits_iff.1 h
    obtain ⟨hroot', hfields'⟩ := fits_iff.1 h'
    refine fits_iff.2 ⟨Rule.meet_admits hroot hroot', fieldsFit_iff.2 fun i f hf c hc => ?_⟩
    exact ih c (mem_parts (mem_of_getElem? hf) hc) (fieldsFit_iff.1 hfields i f hf c hc)
      (fieldsFit_iff.1 hfields' i f hf c hc)

theorem Fits.mono (h : n.Fits R role) (hR : R.Le R') : n.Fits R' role := by
  induction n using induct generalizing role with
  | h n ih =>
    obtain ⟨hroot, hfields⟩ := fits_iff.1 h
    refine fits_iff.2 ⟨hR.admits hroot, fieldsFit_iff.2 fun i f hf c hc => ?_⟩
    exact ih c (mem_parts (mem_of_getElem? hf) hc) (fieldsFit_iff.1 hfields i f hf c hc)

/-- A root that is no name fits a looser rule, if what stands below it does. -/
theorem fits_of_fieldsFit (hR : R.Looser R') (hn : n.identifierName? = none)
    (hroot : R.admits role n = true) (hfields : n.FieldsFit R' role) : n.Fits R' role :=
  fits_iff.2 ⟨hR.admits hn hroot, hfields⟩

/-- Other nodes can take the place of names. -/
theorem Fits.replaceNames (h : n.Fits R role) (hrole : role ≠ .unwalked) (hR : R.Looser R')
    (hσ : ∀ role x, role ≠ .unwalked → R.admits role (identifier x) = true →
      ((σ x).getD (identifier x)).Fits R' role) (nested : Bool) :
    (n.replaceAll (fun _ m => m.identifierName?.bind σ) nested).Fits R' role := by
  refine fits_replaceAll hR.tag (fun nested role m hrole hroot hfields => ?_) h hrole nested
  rcases hm : m.identifierName? with _ | x
  · exact fits_of_fieldsFit hR hm hroot hfields
  · unfold identifierName? at hm
    split at hm <;> cases hm
    exact hσ role x hrole hroot

/-- Where an initializer may stand in the head of a loop, any node can. -/
theorem Fits.headValue (h : n.Fits R .any) (hinit : R.initialized = true) :
    n.Fits R .headValue := by
  obtain ⟨hroot, hfields⟩ := fits_iff.1 h
  refine fits_iff.2 ⟨?_, fieldsFit_iff.2 fun i f hf c hc => ?_⟩
  · unfold Rule.admits at hroot ⊢
    split <;> simp_all [Role.shape, Rule.allows]
  · have hroles : Role.fields .headValue n = Role.fields .any n := by cases n <;> rfl
    have hc' := fieldsFit_iff.1 hfields i f hf c hc
    simpa [Role.below, hroles] using hc'

/-- So can any declarator. -/
theorem Fits.headDeclarator (h : n.Fits R .any) (hinit : R.initialized = true) :
    n.Fits R .headDeclarator := by
  obtain ⟨hroot, hfields⟩ := fits_iff.1 h
  refine fits_iff.2 ⟨?_, fieldsFit_iff.2 fun i f hf c hc => ?_⟩
  · unfold Rule.admits at hroot ⊢
    split <;> simp_all [Role.shape, Rule.allows]
  · -- only the initializer has another role
    have hroles : (Role.fields .headDeclarator n).getD i .any = (Role.fields .any n).getD i .any ∨
        (Role.fields .headDeclarator n).getD i .any = .headValue ∧
        (Role.fields .any n).getD i .any = .any := by
      cases n with
      | declarator =>
        rcases i with _ | _ | i
        · exact .inl rfl
        · exact .inr ⟨rfl, rfl⟩
        · exact .inl rfl
      | _ => exact .inl rfl
    have hc' := fieldsFit_iff.1 hfields i f hf c hc
    rcases hw : f.walked with _ | _
    · rw [hw, Role.below_unwalked] at hc'
      rwa [Role.below_unwalked]
    · rw [hw, Role.below_walked Role.noConfusion] at hc'
      rw [Role.below_walked Role.noConfusion]
      rcases hroles with heq | ⟨heq, heq'⟩
      · rwa [heq]
      · rw [heq]
        exact (heq' ▸ hc').headValue hinit

/-- A node whose shape no role asks for, apart from the heads of loops. -/
def isOpen (n : Node) : Bool :=
  !(n.isPlace || n.isPattern || n.isEntry)

/-- Where such a node can stand, any other one can. -/
theorem Fits.replace {m : Node} (hm : m.Fits R .any) (hR : R.Even) (hn : n.isOpen = true)
    (hhead : role = .head → n.isVarDecl = false) (hroot : R.admits role n = true)
    (hrole : role ≠ .unwalked) : m.Fits R role := by
  rcases hshaped : R.shaped with _ | _
  · exact hm.of_even hR hshaped role
  · have hshape : role.shape n = true := by
      simp [Rule.admits, hshaped] at hroot
      exact hroot.2.1
    simp only [isOpen, Bool.not_eq_true', Bool.or_eq_false_iff] at hn
    obtain ⟨⟨hplace, hpattern⟩, hentry⟩ := hn
    have hidentifier : n.isIdentifier = false := by cases n <;> first | rfl | cases hplace
    have hrest : n.isRestPattern = false := by cases n <;> first | rfl | cases hpattern
    cases role with
    | any => exact hm
    | unwalked => exact absurd rfl hrole
    | headDeclarator => exact hm.headDeclarator hR.initialized
    | headValue => exact hm.headValue hR.initialized
    | pattern use => cases use <;> simp [Role.shape, hidentifier, hpattern, hplace] at hshape
    | head => simp [Role.shape, hpattern, hplace, hhead rfl] at hshape
    | _ => simp [Role.shape, hidentifier, hplace, hentry, hrest] at hshape

/-- Replacements for such nodes keep to the rule of a tree, if they do where any
    node can stand. -/
theorem Fits.replaceAll (hR : R.Even)
    (hf : ∀ nested m m', m.Fits R .any → f nested m = some m' → m.isOpen = true ∧
      m.isVarDecl = false ∧ m'.Fits R .any) (h : n.Fits R role) (hrole : role ≠ .unwalked)
    (nested : Bool) : (n.replaceAll f nested).Fits R role := by
  refine fits_replaceAll (fun _ => id) (fun nested role m hrole hroot hfields => ?_) h hrole nested
  have hm : m.Fits R role := fits_iff.2 ⟨hroot, hfields⟩
  rcases hr : f nested m with _ | m'
  · exact hm
  · obtain ⟨hopen, hvarDecl, hm'⟩ := hf nested m m' (hm.any hrole) hr
    exact hm'.replace hR hopen (fun _ => hvarDecl) hroot hrole

/-- Where a member can stand, a name can. -/
theorem fits_identifier_of_member (hR : R.Even)
    (hroot : R.admits role (member receiver property computed o) = true) (hrole : role ≠ .unwalked)
    (hused : R.used x = true) (hwritten : R.written x = true) : (identifier x).Fits R role := by
  have hx : (identifier x).Fits R .any := fits_identifier.2 hused
  rcases hshaped : R.shaped with _ | _
  · exact hx.of_even hR hshaped role
  · have hshape : role.shape (member receiver property computed o) = true := by
      simp [Rule.admits, hshaped] at hroot
      exact hroot.1
    cases role with
    | any => exact hx
    | unwalked => exact absurd rfl hrole
    | headDeclarator => exact hx.headDeclarator hR.initialized
    | headValue => exact hx.headValue hR.initialized
    | place | head => exact fits_identifier_written rfl hused hwritten
    | pattern use =>
      cases use with
      | bound => cases hshape
      | written => exact fits_identifier_written rfl hused hwritten
    | _ => cases hshape

/-- What takes the place of a name can stand where the name does, if the name
    can be replaced there. -/
theorem Fits.of_keeping {m : Node} (hm : m.Fits R .any) (hR : R.Even) (hshaped : R.shaped = true)
    (hx : R.admits role (identifier x) = true)
    (hkeeping : (Rule.keeping σ).admits role (identifier x) = true) (hσ : σ x = some m)
    (hnames : ∀ y, m = identifier y → R.bound y = true ∧ R.written y = true)
    (hrole : role ≠ .unwalked) : m.Fits R role := by
  have hallows : (Rule.keeping σ).allows role x = true := by
    simpa [Rule.admits, Rule.keeping, hrole] using hkeeping
  -- where a name is bound, only a name can take its place; where it is written,
  -- a member can as well
  have hbound (hall : (σ x).all isIdentifier = true) : ∃ y, m = identifier y ∧
      R.used y = true ∧ R.bound y = true := by
    rw [hσ, Option.all_some] at hall
    unfold isIdentifier at hall
    split at hall
    · exact ⟨_, rfl, fits_identifier.1 hm, (hnames _ rfl).1⟩
    · cases hall
  have hwritten (hwritten : role.isWritten = true)
      (hall : (σ x).all isNameOrMember = true) : m.Fits R role := by
    rw [hσ, Option.all_some] at hall
    unfold isNameOrMember at hall
    split at hall
    · exact fits_identifier_written hwritten (fits_identifier.1 hm) (hnames _ rfl).2
    · exact (fits_member_written hwritten).2 hm
    · cases hall
  cases role with
  | any => exact hm
  | unwalked => exact absurd rfl hrole
  | headDeclarator => exact hm.headDeclarator hR.initialized
  | headValue => exact hm.headValue hR.initialized
  | entry use => simp [Rule.admits, hshaped, Role.shape, isEntry, isRestPattern] at hx
  | name =>
    obtain ⟨y, rfl, hused, hy⟩ := hbound (by simpa [Rule.allows, Rule.keeping] using hallows)
    exact fits_identifier_name hused hy
  | place | head => exact hwritten rfl (by simpa [Rule.allows, Rule.keeping] using hallows)
  | pattern use =>
    cases use with
    | bound =>
      obtain ⟨y, rfl, hused, hy⟩ := hbound (by simpa [Rule.allows, Rule.keeping] using hallows)
      exact fits_identifier_bound hused hy
    | written => exact hwritten rfl (by simpa [Rule.allows, Rule.keeping] using hallows)

/-- Other nodes can take the place of names in a tree that fits the rule which
    this keeps. -/
theorem Fits.replaceNames_keeping (h : n.Fits R role) (hkeeping : n.Fits (.keeping σ) role)
    (hR : R.Even) (hshaped : R.shaped = true) (hσ : ∀ x v, σ x = some v →
      v.Fits R .any ∧ ∀ y, v = identifier y → R.bound y = true ∧ R.written y = true)
    (hrole : role ≠ .unwalked) (nested : Bool) :
    (n.replaceAll (fun _ m => m.identifierName?.bind σ) nested).Fits R role := by
  have hle := Rule.meet_le R (.keeping σ)
  refine (h.meet hkeeping).replaceNames hrole hle.toLooser (fun role x hrole hx => ?_) nested
  have hxR := hle.admits hx
  rcases hget : σ x with _ | v
  · exact fits_identifier_iff.2 hxR
  · obtain ⟨hv, hnames⟩ := hσ x v hget
    exact hv.of_keeping hR hshaped hxR ((Rule.meet_le_right ..).admits hx) hget hnames hrole

/-! ## Vocabularies -/

open Classical in
/-- The rule that asks for the names of a vocabulary, and for no shapes. -/
noncomputable def ruleOf (V : Vocabulary) : Rule where
  used x := decide (V.name x)
  tag t := decide (V.tag t)
  shaped := false

@[simp]
theorem used_ruleOf : (ruleOf V).used x = true ↔ V.name x := by
  simp [ruleOf]

@[simp]
theorem tag_ruleOf {t : Text} : (ruleOf V).tag t = true ↔ V.tag t := by
  simp [ruleOf]

theorem ruleOf_simple (V : Vocabulary) : (ruleOf V).Simple :=
  ⟨rfl, fun _ => ⟨rfl, rfl⟩⟩

/-- A tree keeps to a vocabulary if it fits the rule. -/
theorem fits_ruleOf : n.Fits (ruleOf V) role ↔ n.Speaks V (role != .unwalked) := by
  induction n using induct generalizing role with
  | h n ih =>
    rw [fits_iff, speaks_iff, fieldsFit_iff]
    refine and_congr ?_ ?_
    · have hallows (x : Text) : (ruleOf V).allows role x = true ↔ V.name x := by
        rw [Rule.allows_eq_used fun _ => ⟨rfl, rfl⟩, used_ruleOf]
      have hshape : (!(ruleOf V).shaped || role.shape n) = true := rfl
      have hinitialized : ((ruleOf V).initialized || role != .headValue) = true := rfl
      unfold Rule.admits
      rw [hshape, hinitialized]
      cases n <;> simp [hallows, RootSpeaks, identifierName?, elementName?, or_iff_not_imp_left]
    · have hwalked (i : Nat) (f : Field Node) :
          (role.below n i f.walked != .unwalked) = ((role != .unwalked) && f.walked) := by
        rcases hw : f.walked with _ | _
        · rw [Role.below_unwalked, Bool.and_false]
          rfl
        · by_cases hrole : role = .unwalked
          · rw [hrole, Role.unwalked_below]
            rfl
          · rw [bne_iff_ne.2 (Role.below_ne_unwalked hrole n i), bne_iff_ne.2 hrole]
            rfl
      constructor
      · intro h f hf c hc
        obtain ⟨i, hi⟩ := mem_iff_getElem?.1 hf
        rw [← hwalked i f]
        exact (ih c (mem_parts hf hc)).1 (h i f hi c hc)
      · intro h i f hf c hc
        have hmem := mem_of_getElem? hf
        rw [ih c (mem_parts hmem hc), hwalked]
        exact h f hmem c hc

theorem speaks_iff_fits : n.Speaks V true ↔ n.Fits (ruleOf V) .any :=
  (show n.Fits (ruleOf V) .any ↔ n.Speaks V (Role.any != .unwalked) from fits_ruleOf).symm

end Node

end Resugar
