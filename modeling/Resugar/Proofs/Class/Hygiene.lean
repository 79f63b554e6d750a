import Resugar.Proofs.Class.Rebuilt
import Resugar.Proofs.Class.Restated

/-!
# What hygiene is needed for

A class is hygienic if its parts fit the rule that their replacements keep
(`Rule.keeping`). For one tree, the rule asks no more than it has to: a
well-formed tree stays well formed exactly if it fits. That is so when the tree
leaves its factory, because the arguments of a factory are names, literals and
chains of members (`Node.isPure`), and it is so when the aliases of `this` are
put back.
-/

namespace Resugar

open Rule

variable {R : Rule} {σ : Text → Option Node}

/-- Where no names are replaced, all can be bound and written. -/
theorem Rule.le_keeping (hσ : ∀ x, σ x = none) : wellFormed.Le (.keeping σ) where
  tag _ h := h
  initialized h := h
  shaped := nofun
  used _ h := h
  bound x _ := congrArg (Option.all Node.isIdentifier) (hσ x)
  written x _ := congrArg (Option.all Node.isNameOrMember) (hσ x)

namespace Node

variable {n : Node} {role : Role} {extra : List Text} {body : List Node}

/-! ## Trees in which names are only read -/

/-- Names, literals and `this`, with their properties and with operators before
    them: nothing is bound or written there. -/
def isPath : Node → Bool
  | parenthesized e => e.isPath
  | identifier _ => true
  | literal _ _ => true
  | thisExpr => true
  | member receiver property computed _ => receiver.isPath && (!computed || property.isPath)
  | unary _ argument => argument.isPath
  | _ => false

@[simp]
theorem isPath_ungroup (n : Node) : n.ungroup.isPath = n.isPath := by
  fun_induction ungroup n with
  | case1 e ih => rw [ih, isPath]
  | case2 n => rfl

theorem isPath_of_isPure (h : n.isPure = true) : n.isPath = true := by
  fun_induction isPure n with
  | case1 e ih => exact ih h
  | case5 receiver property computed o ih₁ ih₂ =>
    simp only [Bool.and_eq_true, Bool.or_eq_true] at h
    simp only [isPath, Bool.and_eq_true, Bool.or_eq_true]
    exact ⟨ih₂ h.2, h.1.imp_right ih₁⟩
  | case6 operator argument =>
    rw [isPath, ← isPath_ungroup]
    have hliteral := (Bool.and_eq_true_iff.1 h).2
    unfold isLiteral at hliteral
    split at hliteral
    · rename_i heq
      rw [heq]
      rfl
    · cases hliteral
  | case7 => cases h
  | _ => rfl

/-- A tree is a path if it becomes one, and only paths below it do. -/
theorem isPath_of_withSlots {g : Node → Node} (h : (n.withSlots (n.slotsMap g)).isPath = true)
    (hg : ∀ c ∈ n.parts, (g c).isPath = true → c.isPath = true) : n.isPath = true := by
  cases n with
  | identifier | literal | thisExpr => rfl
  | parenthesized e => exact hg e (by simp [parts, Field.single, Slot.nodes]) h
  | unary operator argument => exact hg argument (by simp [parts, Field.single, Slot.nodes]) h
  | member receiver property computed o =>
    obtain ⟨hreceiver, hproperty⟩ := Bool.and_eq_true_iff.1 h
    refine Bool.and_eq_true_iff.2 ⟨?_, ?_⟩
    · exact hg receiver (by simp [parts, Field.single, Slot.nodes]) hreceiver
    · cases computed with
      | false => rfl
      | true => exact hg property (by simp [parts, Field.single, Slot.nodes]) hproperty
  | _ => cases h

/-- Where no walk comes, any node can stand. -/
theorem fits_unwalked (htag : ∀ t, R.tag t = true) (n : Node) : n.Fits R .unwalked := by
  induction n using induct with
  | h n ih =>
    refine fits_iff.2 ⟨?_, fieldsFit_iff.2 fun i f hf c hc => ?_⟩
    · unfold admits
      split <;> simp [Role.shape, htag]
    · rw [Role.unwalked_below]
      exact ih c (mem_parts (List.mem_of_getElem? hf) hc)

/-- A path fits every rule for which all names may be used. -/
theorem fits_of_isPath (hused : ∀ x, R.used x = true) (htag : ∀ t, R.tag t = true)
    (h : n.isPath = true) : n.Fits R .any := by
  fun_induction isPath n with
  | case1 e ih => exact (compositional _).parenthesized.2 (ih h)
  | case2 x => exact fits_identifier.2 (hused x)
  | case3 => exact fits_literal
  | case4 => exact fits_thisExpr
  | case5 receiver property computed o ih₁ ih₂ =>
    obtain ⟨hreceiver, hproperty⟩ := Bool.and_eq_true_iff.1 h
    refine (compositional _).member.2 ⟨ih₁ hreceiver, ?_⟩
    cases computed with
    | false => exact fits_unwalked htag property
    | true => exact ih₂ hproperty
  | case6 operator argument ih =>
    rw [fits_any_iff rfl rfl]
    simpa [FieldsFit, Field.single, Slot.nodes, Role.below, Role.fields] using ih h
  | case7 => cases h

/-! ## What takes the place of a name -/

/-- A node that is bound only as a name, and written as a name or a member. -/
def isAtom (n : Node) : Bool :=
  n.isNameOrMember || n.isOpen && !n.isVarDecl

theorem isAtom_ungroup (h : n.isPure = true) : n.ungroup.isAtom = true := by
  fun_induction ungroup n with
  | case1 e ih => exact ih h
  | case2 n hn =>
    cases n with
    | parenthesized e => exact absurd rfl (hn e)
    | identifier | literal | thisExpr | member | unary => rfl
    | _ => cases h

/-- If what replaces a name can stand there, the name can be replaced. -/
theorem admits_keeping {x : Text} {v : Node} (hσ : σ x = some v) (hv : v.isAtom = true)
    (hfits : v.Fits .wellFormed role) : (keeping σ).admits role (identifier x) = true := by
  have hshape : role.shape v = true := by
    have hroot := (fits_iff.1 hfits).1
    simp only [admits, Bool.and_eq_true] at hroot
    simpa using hroot.2.1
  have hpattern : v.isPattern = false := by cases v <;> first | rfl | cases hv
  have hvarDecl : v.isVarDecl = false := by cases v <;> first | rfl | cases hv
  have hbound (h : v.isIdentifier = true) : (keeping σ).bound x = true := by
    change (σ x).all isIdentifier = true
    rwa [hσ]
  have hwritten (h : v.isPlace = true) : (keeping σ).written x = true := by
    change (σ x).all isNameOrMember = true
    rw [hσ]
    cases v <;> first | rfl | exact absurd h Bool.false_ne_true | exact absurd hv Bool.false_ne_true
  simp only [admits, allows, Bool.and_eq_true, Bool.or_eq_true]
  refine ⟨.inr ⟨rfl, ?_⟩, .inl rfl, .inl rfl⟩
  cases role with
  | name => exact hbound hshape
  | place => exact hwritten hshape
  | head => exact hwritten (by simpa [Role.shape, hpattern, hvarDecl] using hshape)
  | pattern use =>
    cases use with
    | bound => exact hbound (by simpa [Role.shape, hpattern] using hshape)
    | written => exact hwritten (by simpa [Role.shape, hpattern] using hshape)
  | _ => rfl

/-- A name that stays can stand where it stands. -/
theorem admits_keeping_of_none {x : Text} (hσ : σ x = none) :
    (keeping σ).admits role (identifier x) = true := by
  simp only [admits, allows, keeping, hσ, Option.all_none, Bool.and_eq_true]
  refine ⟨Bool.or_eq_true_iff.2 (.inr ?_), rfl, rfl⟩
  split <;> rfl

/-- A change of the walked nodes below the root can be followed back. -/
theorem fieldsFit_of_map {R' : Rule} {g : Node → Node}
    (htag : ∀ t, R'.tag t = true → R.tag t = true) (h : n.FieldsFit R' role)
    (h' : (n.withSlots (n.slotsMap g)).FieldsFit R' role) (hrole : role ≠ .unwalked)
    (hg : ∀ c ∈ n.parts, ∀ role, role ≠ .unwalked → c.Fits R' role →
      (g c).Fits R' role → c.Fits R role) : n.FieldsFit R role := by
  refine fieldsFit_iff.2 fun i f hf c hc => ?_
  have hc₀ := fieldsFit_iff.1 h i f hf c hc
  rcases hw : f.walked with _ | _
  · rw [hw, Role.below_unwalked] at hc₀
    rw [Role.below_unwalked]
    exact hc₀.unwalked_mono htag
  · rw [hw] at hc₀
    have hfield : (n.withSlots (n.slotsMap g)).fields[i]? =
        some { f with slot := if f.walked then f.slot.map g else f.slot } := by
      rw [slotsMap, fields_withSlots_map, List.getElem?_map, hf, Option.map_some]
    have hc' := fieldsFit_iff.1 h' i _ hfield (g c) (by
      rw [if_pos hw, Slot.nodes_map]
      exact List.mem_map_of_mem hc)
    rw [withSlots, Role.below_setSlots, hw] at hc'
    exact hg c (mem_parts (List.mem_of_getElem? hf) hc) _ (Role.below_ne_unwalked hrole n i) hc₀ hc'

/-- A tree that is well formed before and after a replacement fits the rule that
    the replacement keeps. -/
theorem Fits.keeping_of_replaceAll {f : Bool → Node → Option Node} {nested : Bool}
    (hnames : ∀ nested x, f nested (identifier x) = σ x)
    (hatoms : ∀ x v, σ x = some v → v.isAtom = true)
    (hothers : ∀ nested (m : Node) role, m.isIdentifier = false → role ≠ .unwalked →
      f nested (m.withSlots (m.slotsMap (·.replaceAll f (nested || m.isFunction)))) ≠ none →
        m.Fits (.keeping σ) role)
    (h : n.Fits .wellFormed role) (h' : (n.replaceAll f nested).Fits .wellFormed role)
    (hrole : role ≠ .unwalked) :
    n.Fits (.keeping σ) role := by
  induction n using induct generalizing role nested with
  | h n ih =>
    rw [replaceAll_eq] at h'
    rcases hn : n.isIdentifier with _ | _
    · change ((f nested (n.withSlots (n.slotsMap _))).getD
        (n.withSlots (n.slotsMap _))).Fits .wellFormed role at h'
      rcases hreplaced : f nested (n.withSlots (n.slotsMap
          (·.replaceAll f (nested || n.isFunction)))) with _ | m
      · rw [hreplaced, Option.getD_none] at h'
        refine fits_iff.2 ⟨?_, fieldsFit_of_map (fun _ _ => rfl) (fits_iff.1 h).2
          (fits_iff.1 h').2 hrole fun c hc role hrole hfit hfit' => ih c hc hfit hfit' hrole⟩
        cases n <;> first | rfl | cases hn
      · exact hothers nested n role hn hrole (by rw [hreplaced]; nofun)
    · cases n with
      | identifier x =>
        change ((f nested (identifier x)).getD (identifier x)).Fits .wellFormed role at h'
        rw [hnames] at h'
        refine fits_identifier_iff.2 ?_
        rcases hσ : σ x with _ | v
        · exact admits_keeping_of_none hσ
        · rw [hσ, Option.getD_some] at h'
          exact admits_keeping hσ (hatoms x v hσ) h'
      | _ => cases hn

/-- Where no shapes count, the place of a member does not either. -/
theorem Fits.member_keeping {receiver property : Node} {computed o : Bool}
    (h : (member receiver property computed o).Fits (.keeping σ) .any) (hrole : role ≠ .unwalked) :
    (member receiver property computed o).Fits (.keeping σ) role := by
  refine fits_iff.2 ⟨rfl, fieldsFit_iff.2 fun i f hf c hc => ?_⟩
  have hc := fieldsFit_iff.1 (fits_iff.1 h).2 i f hf c hc
  rcases hw : f.walked with _ | _
  · rw [hw, Role.below_unwalked] at hc
    rwa [Role.below_unwalked]
  · rw [hw, Role.below_walked Role.noConfusion] at hc
    rwa [Role.below_walked hrole]

/-! ## Aliases of `this` -/

/-- An alias of `this` stands for `this`, or for properties of it. -/
theorem isAtom_of_mem_aliasTable {e : Text × Node} (he : e ∈ aliasTable extra body) :
    e.2.isAtom = true ∧ e.2.isPath = true := by
  obtain hthis | ⟨s, -, d, -, hd⟩ := mem_aliasTable he
  · rw [hthis]
    exact ⟨rfl, rfl⟩
  · obtain ⟨init, -, -, hthis | ⟨receiver, property, o, hmember, hreceiver⟩⟩ := thisAlias?_cases hd
    · rw [hthis]
      exact ⟨rfl, rfl⟩
    · rw [hmember]
      refine ⟨rfl, ?_⟩
      rw [isPath, Bool.not_false, Bool.true_or, Bool.and_true, ← isPath_ungroup]
      unfold isThis at hreceiver
      split at hreceiver
      · rename_i heq
        rw [heq]
        rfl
      · cases hreceiver

/-- Putting the aliases of `this` back keeps a tree well formed exactly if none
    is bound, and none is written that does not stand for a member. -/
theorem substitute_fits_iff (hn : n.Fits .wellFormed role) (hrole : role ≠ .unwalked) :
    (substitute (aliasTable extra body) n).Fits .wellFormed role ↔
      n.Fits (.keeping (aliasTable extra body).get?) role := by
  have hvalues {x : Text} {v : Node} (h : (aliasTable extra body).get? x = some v) :
      v.isAtom = true ∧ v.isPath = true := isAtom_of_mem_aliasTable (Table.mem_of_get? h)
  have hsimple := wellFormed_simple
  constructor
  · intro h
    refine hn.keeping_of_replaceAll (fun _ _ => rfl) (fun _ _ h => (hvalues h).1)
      (fun nested m role hm _ hreplaced => absurd ?_ hreplaced) h hrole
    -- only names are replaced
    cases m <;> first | rfl | cases hm
  · intro h
    refine hn.replaceNames_keeping h hsimple.even rfl (fun x v hv => ?_) hrole false
    exact ⟨fits_of_isPath (fun _ => rfl) (fun _ => rfl) (hvalues hv).2, fun y _ => hsimple.names y⟩

/-- The aliases of `this` are apart exactly if statements stay well formed. -/
theorem aliasesApart_iff (hbody : ∀ s ∈ body, s.WellFormed) :
    aliasesApart extra body = true ↔ ∀ s ∈ inlineThisAliases extra body, s.WellFormed := by
  have hwithout : ∀ s ∈ withoutAliases (aliasTable extra body) body, s.WellFormed :=
    filterDeclarators_inherits wellFormed.compositional hbody
  unfold aliasesApart inlineThisAliases
  rw [List.all_eq_true]
  dsimp only
  split
  · -- without aliases, nothing is replaced
    rename_i hempty
    refine iff_of_true (fun s hs => (hwithout s hs).mono (le_keeping fun x => ?_)) hbody
    rw [List.isEmpty_iff.1 hempty]
    rfl
  · rw [List.forall_mem_map]
    exact forall₂_congr fun s hs => (substitute_fits_iff (hwithout s hs) Role.noConfusion).symm

/-- A member stays well formed when `this` is put back in its body, exactly if
    its aliases are apart. -/
theorem normalizeMember_wellFormed_iff {m m' : Node} (h : m.normalizeMember = .ok m')
    (hm : m.WellFormed) : m'.WellFormed ↔ m.isMethodApart = true := by
  unfold normalizeMember at h
  split at h
  · rename_i key id params body isAsync isGenerator kind isStatic computed
    obtain ⟨hkey, hvalue⟩ := (compositional _).method.1 hm
    obtain ⟨hid, hparams, hbody⟩ := (compositional _).functionExpr.1 hvalue
    obtain ⟨statements, hstatements, h⟩ := bind_eq_ok.1 h
    obtain ⟨-, -, h⟩ := bind_eq_ok.1 h
    cases h
    have hcompositional := wellFormed.compositional
    have hall := statements_fit hstatements hbody
    have hmember {ss : List Node} : (method key (functionExpr id params (body.withStatements ss)
        isAsync isGenerator) kind isStatic computed).WellFormed ↔ ∀ s ∈ ss, s.WellFormed := by
      refine ⟨fun h => ?_, fun h => (compositional _).method.2
        ⟨hkey, (compositional _).functionExpr.2 ⟨hid, hparams, ?_⟩⟩⟩
      · exact statements_fit (statements_withStatements hstatements)
          ((compositional _).functionExpr.1 ((compositional _).method.1 h).2).2.2
      · exact withStatements_fits hstatements h
    rw [hmember]
    split
    · rename_i hkind
      rw [hkind]
      exact iff_of_true (resolveHeld_inherits hcompositional hall) rfl
    · rename_i hkind
      have haliased : ∀ s ∈ aliasedBody statements, s.WellFormed := by
        refine resolveHeld_inherits hcompositional fun s hs => ?_
        obtain ⟨t, ht, rfl⟩ := List.mem_map.1 hs
        exact unwrapAssertions_inherits hcompositional
          wellFormed_simple.even.exchanges (hall t ht)
      rw [← aliasesApart_iff haliased]
      simp [isMethodApart, hstatements, hkind, Except.toOption]
  · rename_i hmethod
    cases h
    refine iff_of_true hm ?_
    unfold isMethodApart
    split
    · exact absurd rfl (hmethod _ _ _ _ _ _ _ _ _)
    · rfl

end Node

/-! ## Names of a factory -/

namespace Reference

open Node

variable {r : Reference} {n : Node} {role : Role}

/-- Names of a factory are replaced below a node first, and then at the node. -/
theorem resolve_eq (r : Reference) (n : Node) :
    r.resolve n = (r.resolve? (n.withSlots (n.slotsMap r.resolve))).getD
      (n.withSlots (n.slotsMap r.resolve)) := by
  have hslots : n.slotsMap (·.replaceAll (fun _ => r.resolve?) (false || n.isFunction)) =
      n.slotsMap r.resolve := slotsMap_congr fun c _ => replaceAll_nested r.resolve? c _
  rw [resolve, replaceAll_eq, ← hslots]
  rfl

/-- A property with a name is a path if that is one which has the property. -/
theorem isPath_member {receiver property : Node} {computed o : Bool} {name : Text}
    (h : property.propertyName? computed = some name) :
    (member receiver property computed o).isPath = receiver.isPath := by
  have hproperty : (!computed || property.isPath) = true := by
    unfold propertyName? at h
    split at h <;> first | rfl | cases h
  rw [isPath, hproperty, Bool.and_true]

/-- A node that refers to the prototype is a path. -/
theorem isPath_of_isPrototypeRef {names : ClassNames} (h : names.isPrototypeRef n = true) :
    n.isPath = true := by
  rw [← isPath_ungroup]
  rcases Bool.or_eq_true_iff.1 h with h | h
  · rw [isNamed_iff.1 h]
    rfl
  · obtain ⟨hprototype, hclass⟩ := Bool.and_eq_true_iff.1 h
    generalize n.ungroup = m at hprototype hclass
    cases m with
    | member receiver property computed o =>
      obtain ⟨x, hx, -⟩ := (Option.any_eq_true _ _).1 (Option.any_some ▸ hclass)
      rw [isPath_member (beq_iff_eq.1 hprototype), ← isPath_ungroup, identifierName?_eq_some.1 hx]
      rfl
    | _ => cases hclass

/-- A member that gives way to the class is a path, once replaced below. -/
theorem isPath_of_resolve? (h : r.resolve? n ≠ none) : n.isPath = true := by
  obtain ⟨m, hm⟩ := Option.ne_none_iff_exists'.1 h
  obtain ⟨x, rfl, -⟩ | ⟨receiver, property, computed, o, rfl, hproperty, hreceiver, -⟩ :=
    resolve?_eq_some hm
  · rfl
  · rw [isPath_member hproperty]
    exact isPath_of_isPrototypeRef hreceiver

/-- What becomes a path was one. -/
theorem isPath_of_resolve (h : (r.resolve n).isPath = true) : n.isPath = true := by
  induction n using induct with
  | h n ih =>
    refine isPath_of_withSlots ?_ ih
    rw [resolve_eq] at h
    rcases hreplaced : r.resolve? (n.withSlots (n.slotsMap r.resolve)) with _ | m
    · rwa [hreplaced, Option.getD_none] at h
    · exact isPath_of_resolve? (by rw [hreplaced]; nofun)

/-- What stands for a name of a factory is no pattern. -/
theorem isAtom_of_ofName? (hvalues : ∀ e ∈ r.values, e.2.isAtom = true) {x : Text} {v : Node}
    (h : r.ofName? x = some v) : v.isAtom = true := by
  unfold ofName? at h
  split at h
  · cases h
    rfl
  · split at h
    · cases h
      rfl
    · exact hvalues _ (Table.mem_of_get? h)

/-- Leaving the factory keeps a tree well formed exactly if no name is bound
    that anything but a name takes the place of, and none is written that
    anything but a name or a member takes the place of. -/
theorem resolve_fits_iff (hvalues : r.values.All fun _ v => v.isAtom = true ∧ v.isPath = true)
    (hn : n.Fits .wellFormed role) (hrole : role ≠ .unwalked) :
    (r.resolve n).Fits .wellFormed role ↔ n.Fits (.keeping r.ofName?) role := by
  constructor
  · intro h
    refine hn.keeping_of_replaceAll (fun _ _ => rfl)
      (fun x v => isAtom_of_ofName? fun e he => (hvalues e he).1)
      (fun nested m role hm hrole hne => ?_) h hrole
    -- where a member gives way to the class, no name below it is bound or written
    rw [slotsMap_congr fun c _ => replaceAll_nested r.resolve? c _] at hne
    have hpath := isPath_of_withSlots (isPath_of_resolve? hne) fun c _ => isPath_of_resolve
    cases m with
    | member =>
      exact (fits_of_isPath (fun _ => rfl) (fun _ => rfl) hpath).member_keeping hrole
    | identifier => cases hm
    | _ => exact absurd rfl hne
  · intro h
    have hcarries := carries_keeping (r := r) wellFormed_simple rfl rfl fun e he =>
      fits_of_isPath (fun _ => rfl) (fun _ => rfl) (hvalues e he).2
    exact resolve_fits hcarries.toResolves (hn.meet h) hrole

end Reference

/-! ## The arguments of a factory -/

namespace Factory

open Node

variable {f : Factory}

/-- The arguments of a factory are names, literals and chains of members. -/
theorem values_isAtom {className : Text} {p : SortedClass}
    (h : f.sorted? className = .ok (some p)) :
    p.reference.values.All fun _ v => v.isAtom = true ∧ v.isPath = true := by
  obtain ⟨before, -, -, hreference, -⟩ := sorted?_cases h
  obtain ⟨hvalues, -, hpure⟩ := values?_eq_some (reference?_cases hreference).1
  rw [hvalues]
  refine valuesOf_forall ⟨rfl, rfl⟩ (fun a ha => ?_) (List.forall_mem_nil _)
  have hpure := List.all_eq_true.1 hpure a ha
  exact ⟨isAtom_ungroup hpure, (isPath_ungroup a).trans (isPath_of_isPure hpure)⟩

end Factory

/-! ## Classes -/

open Node

/-- What hygiene asks of the parts of a class is what they need to stay well
    formed, each on its own: outside of the factory, and when `this` is put
    back. -/
structure SortedClass.NeedsHygiene (p : SortedClass) : Prop where
  names {n : Node} {role : Role} : n.Fits .wellFormed role → role ≠ .unwalked →
    ((p.reference.resolve n).Fits .wellFormed role ↔ n.Fits (.keeping p.reference.ofName?) role)
  draft : (∀ s ∈ p.draft.body, s.WellFormed) →
    ((∀ s ∈ inlineThisAliases p.draft.inlined.toList p.draft.body, s.WellFormed) ↔
      aliasesApart p.draft.inlined.toList p.draft.body = true)
  members {m m' : Node} : m ∈ p.members → m.WellFormed → m.normalizeMember = .ok m' →
    (m'.WellFormed ↔ m.isMethodApart = true)

/-- What hygiene asks for is needed in every class that a factory describes. -/
theorem Factory.needsHygiene {f : Factory} {className : Text} {p : SortedClass}
    (h : f.sorted? className = .ok (some p)) : p.NeedsHygiene where
  names := Reference.resolve_fits_iff (values_isAtom h)
  draft hbody := (aliasesApart_iff hbody).symm
  members _ hm hm' := normalizeMember_wellFormed_iff hm' hm

end Resugar
