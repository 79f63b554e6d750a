import Resugar.Proofs.Class.Scope

/-!
# Constructors that call `super`

A class with a superclass gets a constructor in which `super(…)` stands where
the compiled constructor called the superclass. Before that there is no instance
that the constructor could touch. Aliases of `this` and names of the factory are
replaced, but nothing is moved: the statements before the call are those of the
compiled constructor, less copies of the arguments and empty declarations.
-/

namespace Resugar

open Node List Factory

/-- No names stand for the instance. -/
def noNames : Text → Bool :=
  fun _ => false

/-! ## Locals that stand for `this` -/

namespace Node

variable {stands : Text → Bool} {n s : Node} {body : List Node} {extra : List Text}

theorem touches_of_isThis (h : n.ungroup.isThis = true) : n.touches stands = true := by
  rw [← touches_ungroup]
  unfold isThis at h
  split at h
  · rename_i heq
    rw [heq, touches_thisExpr]
  · cases h

/-- What the aliases stand for touches the instance, and is not `super`. -/
theorem aliasTable_touches (stands : Text → Bool) (extra : List Text) (body : List Node) :
    ∀ e ∈ aliasTable extra body, e.2.touches stands = true ∧ e.2.isSuperForm = false := by
  have hthis : thisExpr.touches stands = true ∧ thisExpr.isSuperForm = false :=
    ⟨touches_thisExpr, rfl⟩
  intro e he
  obtain heq | ⟨-, -, d, -, hd⟩ := mem_aliasTable he
  · exact heq ▸ hthis
  · obtain ⟨init, -, -, heq | ⟨receiver, property, o, heq, hreceiver⟩⟩ := thisAlias?_cases hd
    · exact heq ▸ hthis
    · rw [heq, touches_member, touches_of_isThis hreceiver]
      exact ⟨rfl, rfl⟩

/-- Without some declarators, no more is touched. -/
theorem noEarlier_filterDeclarators (stands : Text → Bool) (keep : Node → Bool) (body : List Node) :
    NoEarlier stands (filterDeclarators keep body) body := by
  induction body with
  | nil => exact .refl []
  | cons s rest ih =>
    rw [filterDeclarators, filterMap_cons]
    split
    · rename_i hs
      split at hs
      · exact .drop isSuperCall_varDecl ih
      · cases hs
    · rename_i s' hs
      split at hs
      · split at hs
        · cases hs
        · rename_i kind ds kept _ hkept
          cases hs
          refine .cons rfl (fun h => ?_) ih
          rw [touches_varDecl] at h ⊢
          obtain ⟨d, hd, hdtouches⟩ := any_eq_true.1 h
          exact any_eq_true.2 ⟨d, (mem_filter.1 hd).1, hdtouches⟩
      · cases hs
        exact .cons rfl id ih

/-- If all declarators are kept, the same is touched. -/
theorem touchesEarly?_filterDeclarators {keep : Node → Bool}
    (hkeep : ∀ d, keep d = true) (body : List Node) :
    touchesEarly? stands (filterDeclarators keep body) = touchesEarly? stands body := by
  induction body with
  | nil => rfl
  | cons s rest ih =>
    rw [filterDeclarators] at ih ⊢
    rw [filterMap_cons]
    split
    · rename_i hs
      split at hs
      · rename_i kind ds
        split at hs
        · rename_i hnil
          -- a declaration goes only if it was empty, and then it touched nothing
          rw [filter_eq_self.2 fun d _ => hkeep d] at hnil
          rw [ih, touchesEarly?, isSuperCall_varDecl, touches_varDecl, hnil]
          cases touchesEarly? stands rest <;> rfl
        · cases hs
      · cases hs
    · rename_i s' hs
      have hs : s' = s := by
        split at hs
        · split at hs
          · cases hs
          · rw [filter_eq_self.2 fun d _ => hkeep d] at hs
            exact (Option.some.inj hs).symm
        · exact (Option.some.inj hs).symm
      rw [hs, touchesEarly?, touchesEarly?, ih]

/-- Where `this` is put back, what touched an alias touches the instance. -/
theorem touchesEarly?_inlineThisAliases (stands : Text → Bool)
    (extra : List Text) (body : List Node) :
    touchesEarly? stands (inlineThisAliases extra body) =
      touchesEarly? (fun x => (aliasTable extra body).has x || stands x)
        (withoutAliases (aliasTable extra body) body) := by
  unfold inlineThisAliases
  dsimp only
  split
  · rename_i hempty
    rw [List.isEmpty_iff.1 hempty, withoutAliases, touchesEarly?_filterDeclarators fun d => ?_]
    · rfl
    · cases d.declaredName? <;> rfl
  · have hkeeps : KeepsInstance stands fun m =>
        m.identifierName?.bind (aliasTable extra body).get? :=
      ⟨fun x v hv => (aliasTable_touches stands extra body _
        (Table.mem_of_get? hv)).2, fun m v hm hv => by
        rw [hm] at hv
        cases hv⟩
    have hstands :
        standsBehind (fun m => m.identifierName?.bind (aliasTable extra body).get?) stands =
          fun x => (aliasTable extra body).has x || stands x := by
      funext x
      rw [standsBehind, Table.has, show (identifier x).identifierName?.bind _ =
        (aliasTable extra body).get? x from rfl]
      rcases hget : (aliasTable extra body).get? x with _ | v
      · exact touches_identifier
      · exact (aliasTable_touches stands extra body _ (Table.mem_of_get? hget)).1
    rw [← hstands]
    exact touchesEarly?_replaceAll hkeeps _

/-! ## Properties of `this` -/

/-- As long as nothing is held, a declarator is kept; and only one that touches
    the instance makes a variable hold. -/
theorem resolveDeclarator_nil (stands reassigned : Text → Bool) (d : Node) :
    (resolveDeclarator reassigned [] d).1 = d ∧
      (d.touches stands = false → (resolveDeclarator reassigned [] d).2 = []) := by
  unfold resolveDeclarator
  split
  · rename_i name init
    split
    · rename_i receiver property computed o hinit
      split
      · rename_i hreceiver
        refine ⟨rfl, fun htouches => ?_⟩
        rw [touches_declarator, Option.any_some, ← touches_ungroup init, hinit,
          touches_member, ← touches_ungroup receiver, hreceiver, touches_thisExpr, Bool.true_or,
          Bool.or_true] at htouches
        cases htouches
      · exact ⟨rfl, fun _ => rfl⟩
      · exact ⟨rfl, fun _ => rfl⟩
    · exact ⟨rfl, fun _ => rfl⟩
  · exact ⟨rfl, fun _ => rfl⟩

/-- Before anything is held, declarators touch the instance as before. -/
theorem resolveDeclarators_nil (stands reassigned : Text → Bool) (ds : List Node) :
    (resolveDeclarators reassigned [] ds).1.any (touches stands) = ds.any (touches stands) ∧
      (ds.any (touches stands) = false → (resolveDeclarators reassigned [] ds).2 = []) := by
  induction ds with
  | nil => exact ⟨rfl, fun _ => rfl⟩
  | cons d ds ih =>
    obtain ⟨hkept, hheld⟩ := resolveDeclarator_nil stands reassigned d
    rw [resolveDeclarators]
    dsimp only
    rw [any_cons, any_cons, hkept]
    rcases hd : d.touches stands with _ | _
    · rw [hheld hd]
      exact ih
    · exact ⟨rfl, fun h => by cases h⟩

/-- Resolving declarators neither makes nor takes away any `super(…)`. -/
theorem any_isSuperCall_resolveStatements (reassigned : Text → Bool)
    (held : Table Node) (body : List Node) :
    (resolveStatements reassigned held body).any isSuperCall = body.any isSuperCall := by
  fun_induction resolveStatements reassigned held body with
  | case1 => rfl
  | case2 held kind ds rest ds' held' _ ih =>
    rw [any_cons, any_cons, ih, isSuperCall_varDecl, isSuperCall_varDecl]
  | case3 held s rest _ ih => rw [any_cons, any_cons, ih]

/-- Before the instance is touched, no variable holds a property of it that
    could be looked through. -/
theorem touchesEarly?_resolveStatements (reassigned : Text → Bool) (body : List Node) :
    touchesEarly? stands (resolveStatements reassigned [] body) = touchesEarly? stands body := by
  induction body with
  | nil => rfl
  | cons s rest ih =>
    unfold resolveStatements
    split
    · rename_i heq
      cases heq
    · rename_i kind ds rest heq
      cases heq
      obtain ⟨hany, hheld⟩ := resolveDeclarators_nil stands reassigned ds
      dsimp only
      rw [touchesEarly?, touchesEarly?, isSuperCall_varDecl, isSuperCall_varDecl,
        touches_varDecl, touches_varDecl, hany]
      rcases hds : ds.any (touches stands) with _ | _
      · rw [hheld hds, ih]
      · -- from here on it only counts whether `super(…)` is called at all
        have hsome (held : Table Node) :
            (touchesEarly? stands (resolveStatements reassigned held rest)).isSome =
            (touchesEarly? stands rest).isSome := by
          rw [touchesEarly?_isSome, touchesEarly?_isSome, any_isSuperCall_resolveStatements]
        have hsome := hsome (resolveDeclarators reassigned [] ds).2
        generalize touchesEarly? stands rest = o at hsome ⊢
        generalize touchesEarly? stands (resolveStatements _ _ rest) = o' at hsome ⊢
        cases o <;> cases o' <;> first | rfl | cases hsome
    · rename_i heq
      cases heq
      rw [touchesEarly?, touchesEarly?, ih]

/-- Resolving held properties does not touch the instance earlier. -/
theorem touchesEarly?_resolveHeld (stands : Text → Bool) (body : List Node) :
    touchesEarly? stands (resolveHeld body) = touchesEarly? stands body :=
  touchesEarly?_resolveStatements _ body

/-! ## Other changes inside of a constructor -/

/-- A property that is defined on `this` and one that is assigned to it both
    touch the instance. -/
theorem definedProperty_keeps (stands : Text → Bool) (s : Node) :
    s.definedProperty.isSuperCall = s.isSuperCall ∧
      s.definedProperty.touches stands = s.touches stands := by
  unfold definedProperty
  split
  · rename_i e
    split
    · rename_i f target key value o he
      split
      · rename_i hthis
        have hcall : e.callsSuper = false := by
          cases e <;> first | rfl | (cases he; rfl)
        refine ⟨hcall.symm, ?_⟩
        rw [touches_exprStmt, touches_assignment, touches_exprStmt, ← touches_ungroup e, he,
          touches_call, any_cons, touches_of_isThis (Bool.and_eq_true_iff.1 hthis).2,
          Bool.true_or, Bool.or_true]
        split <;> rw [touches_member, touches_thisExpr, Bool.true_or, Bool.true_or]
      · exact ⟨rfl, rfl⟩
    · exact ⟨rfl, rfl⟩
  · exact ⟨rfl, rfl⟩

/-- Nor does writing definitions of properties as assignments. -/
theorem touchesEarly?_definedProperty (stands : Text → Bool) (body : List Node) :
    touchesEarly? stands (body.map definedProperty) = touchesEarly? stands body :=
  touchesEarly?_map (fun s => (definedProperty_keeps stands s).1)
    (fun s => (definedProperty_keeps stands s).2) body

/-- Nor does leaving out a return at the end. -/
theorem touchesEarly?_dropReturn (kept : Option Text) (body : List Node) :
    touchesEarly? stands (ConstructorDraft.dropReturn kept body) = touchesEarly? stands body := by
  unfold ConstructorDraft.dropReturn
  split
  · rename_i hlast
    obtain ⟨s, hs, hreturn⟩ := (Option.any_eq_true _ _).1 hlast
    obtain ⟨rest, rfl⟩ := getLast?_eq_some_iff.1 hs
    rw [dropLast_concat, touchesEarly?_concat]
    unfold ConstructorDraft.isRedundantReturn at hreturn
    split at hreturn <;> first | rfl | cases hreturn
  · rfl

end Node

/-! ## Names of the factory -/

theorem Node.isPure_ungroup {n : Node} (h : n.isPure = true) : n.ungroup.isPure = true := by
  fun_induction ungroup n with
  | case1 e ih => exact ih h
  | case2 => exact h

theorem Node.isSuperForm_of_isPure {n : Node} (h : n.isPure = true) : n.isSuperForm = false := by
  cases n <;> first | rfl | cases h

variable {className : Text} {compiled m : Node} {params : List Node} {f : Factory}
  {draft : ConstructorDraft}

/-- What a name of a factory stands for is not `super`. -/
theorem Factory.ofName?_isSuperForm {r : Reference} {before : List Node}
    (h : f.reference? className = some (r, before)) {x : Text} {v : Node}
    (hv : r.ofName? x = some v) : v.isSuperForm = false := by
  unfold Reference.ofName? at hv
  split at hv
  · cases hv
    rfl
  · split at hv
    · cases hv
      rfl
    · have hvalues := (reference?_cases h).1
      by_cases hx : x ∈ namesOf f.params
      · by_cases hmissing : x ∈ f.missingNames
        · rw [value_of_missing hvalues hmissing] at hv
          cases hv
          rfl
        · obtain ⟨a, ha, hget⟩ := value_of_given hvalues hx hmissing
          rw [hget] at hv
          cases hv
          exact isSuperForm_of_isPure (isPure_ungroup
            (all_eq_true.1 (values?_eq_some hvalues).2.2 a ha))
      · rw [value_of_other hvalues hx] at hv
        cases hv

/-- A property with a fixed name does not touch the instance. -/
theorem Node.propertyName?_touches {stands : Text → Bool} {property : Node} {computed : Bool}
    {name : Text} (h : property.propertyName? computed = some name) :
    (computed && property.touches stands) = false := by
  unfold propertyName? at h
  split at h
  · rfl
  · rw [touches_eq]
    rfl
  · cases h

namespace Reference

variable {r : Reference} {n v : Node}

/-- The class does not touch the instance by itself. -/
theorem isClassRef_touches {names : ClassNames} (h : names.isClassRef n = true) :
    n.touches noNames = false := by
  obtain ⟨x, hx, -⟩ := (Option.any_eq_true _ _).1 h
  rw [← touches_ungroup, identifierName?_eq_some.1 hx, touches_identifier]
  rfl

/-- The prototype does not touch the instance by itself. -/
theorem isPrototypeRef_touches {names : ClassNames} (h : names.isPrototypeRef n = true) :
    n.touches noNames = false := by
  rw [← touches_ungroup]
  rcases Bool.or_eq_true_iff.1 h with h | h
  · rw [identifierName?_eq_some.1 (beq_iff_eq.1 h), touches_identifier]
    rfl
  · obtain ⟨hprototype, hreceiver⟩ := Bool.and_eq_true_iff.1 h
    obtain ⟨receiver, hmember, hclass⟩ := (Option.any_eq_true _ _).1 hreceiver
    obtain ⟨property, computed, o, heq⟩ := receiver?_eq_some.1 hmember
    rw [heq] at hprototype
    rw [heq, touches_member, isClassRef_touches hclass,
      propertyName?_touches (beq_iff_eq.1 hprototype)]
    rfl

/-- The constructor of the prototype does not touch the instance. -/
theorem resolve?_touches (hname : n.identifierName? = none) (h : r.resolve? n = some v) :
    v.touches noNames = n.touches noNames ∧ v.isSuperForm = false ∧ n.isSuperForm = false := by
  unfold resolve? at h
  split at h
  · cases hname
  · split at h
    · rename_i hconstructor
      cases h
      obtain ⟨hproperty, hreceiver⟩ := Bool.and_eq_true_iff.1 hconstructor
      refine ⟨?_, rfl, rfl⟩
      rw [touches_identifier, touches_member, isPrototypeRef_touches hreceiver,
        propertyName?_touches (beq_iff_eq.1 hproperty)]
      rfl
    · cases h
  · cases h

/-- A superclass method called on `this` or `super` touches the instance. -/
theorem superMethodCall?_touches {isStatic : Bool}
    (h : r.superMethodCall? isStatic n = .ok (some v)) :
    v.touches noNames = n.touches noNames ∧ v.isSuperForm = false ∧ n.isSuperForm = false := by
  obtain ⟨owner, property, computed, o, callProperty, callComputed, o', arguments, o'', name,
    arguments', rfl, -, -, harguments', rfl⟩ := superMethodCall?_cases h
  unfold methodArguments? at harguments'
  split at harguments'
  · refine ⟨?_, rfl, rfl⟩
    rw [touches_call, touches_member, touches_superExpr, touches_call, any_cons,
      touches_thisExpr, Bool.true_or, Bool.true_or, Bool.true_or, Bool.or_true]
  · cases harguments'

/-- The replacements that a method makes keep what touches the instance. -/
theorem keepsInstance_resolveInMethod
    (hr : ∀ x v, r.ofName? x = some v → v.isSuperForm = false) (isStatic : Bool) :
    KeepsInstance noNames (faultless (r.resolveInMethod? isStatic) false) where
  name := hr
  other n v hname h := by
    have h := eq_ok_of_join h
    unfold resolveInMethod? at h
    split at h
    · exact superMethodCall?_touches h
    · exact resolve?_touches hname (Except.ok.inj h)

/-- What touched the instance by a name does so by what that stands for. -/
theorem touchesEarly?_resolveInMethod (hr : ∀ x v, r.ofName? x = some v → v.isSuperForm = false)
    {isStatic : Bool} {body body' : List Node}
    (h : body.mapM (fun s => s.replaceAllM (r.resolveInMethod? isStatic) false) = .ok body') :
    touchesEarly? noNames body' =
      touchesEarly? (fun x => (r.ofName? x).any (touches noNames)) body := by
  have hkeeps := keepsInstance_resolveInMethod hr isStatic
  have hstands : standsBehind (faultless (r.resolveInMethod? isStatic) false) noNames =
      fun x => (r.ofName? x).any (touches noNames) := by
    funext x
    rw [standsBehind, show faultless (r.resolveInMethod? isStatic) false
      (identifier x) = r.ofName? x from rfl]
    rcases r.ofName? x with _ | v
    · exact touches_identifier
    · rfl
  rw [eq_map_of_mapM h fun s _ s' hs' => replaceAll_of_replaceAllM hs',
    touchesEarly?_replaceAll hkeeps, hstands]

end Reference

/-! ## The constructor -/

/-- The statements of a constructor. -/
def Node.constructorBody? : Node → Option (List Node)
  | .method _ (.functionExpr _ _ body _ _) .constructor _ _ => body.statements.toOption
  | _ => none

/-- The statements of a compiled constructor, less checks on how it is called
    and assertions on `this`. -/
def ClassNames.ownStatements (names : ClassNames) (compiled : Node) : List Node :=
  ((compiled.statements.toOption.getD []).filter (!names.isCallCheck ·)).map unwrapAssertions

namespace SortedClass

/-- The variables that hold `this` in a constructor and are put back. -/
def aliases (p : SortedClass) : Table Node :=
  aliasTable p.draft.inlined.toList p.draft.body

/-- The names that stand for the instance in a constructor: aliases of `this`,
    and names of the factory for something with `this` in it. -/
def standsForThis (p : SortedClass) (x : Text) : Bool :=
  p.aliases.has x || (p.reference.ofName? x).any (touches noNames)

end SortedClass

/-- In the body of a constructor, held properties are resolved, and then the
    names of the factory. -/
theorem Reference.rebuildMember_constructor {r : Reference} {key : Node} {body old : List Node}
    (hcompiled : compiled.statements = .ok old) (h : r.rebuildMember (.method key
      (.functionExpr none params (compiled.withStatements body) false false)
      .constructor false false) = .ok m) :
    ∃ body', m.constructorBody? = some body' ∧
      (resolveHeld body).mapM (fun s => s.replaceAllM (r.resolveInMethod? false) false) =
        .ok body' := by
  obtain ⟨m', hm', h⟩ := bind_eq_ok.1 h
  obtain ⟨statements, hstatements, hm'⟩ := bind_eq_ok.1 hm'
  obtain ⟨-, -, hm'⟩ := bind_eq_ok.1 hm'
  cases hm'
  have hown : (compiled.withStatements body).statements = .ok body :=
    statements_withStatements hcompiled
  cases hown.symm.trans hstatements
  -- the kind of a constructor lets only `resolveHeld` change its statements
  have hnormalized : ((compiled.withStatements body).withStatements (resolveHeld body)).statements =
      .ok (resolveHeld body) := statements_withStatements hown
  obtain ⟨body', hbody', h⟩ := bind_eq_ok.1 h
  obtain ⟨held, hheld, hbody'⟩ := bind_eq_ok.1 hbody'
  obtain ⟨final, hfinal, hbody'⟩ := bind_eq_ok.1 hbody'
  cases hbody'
  cases h
  cases hnormalized.symm.trans hheld
  exact ⟨final, congrArg Except.toOption (statements_withStatements hnormalized), hfinal⟩

/-! ## The draft of the constructor -/

section

variable {stands : Text → Bool} {name : Text} {arguments params params' body body' : List Node}

/-- A loop that copies the arguments does not call `super(…)`. -/
theorem Node.isCopyLoop_isSuperCall {s : Node} (h : s.isCopyLoop name = .ok true) :
    s.isSuperCall = false := by
  unfold isCopyLoop at h
  split at h
  · rfl
  · cases h

/-- The loop that copies `arguments` is no `super(…)`, so it may go. -/
theorem Node.withoutCopyLoop?_noEarlier (h : withoutCopyLoop? name body = .ok (some body')) :
    NoEarlier stands body' body := by
  induction body generalizing body' with
  | nil => cases h
  | cons s rest ih =>
    obtain ⟨isLoop, hloop, h⟩ := bind_eq_ok.1 h
    cases isLoop with
    | true =>
      cases h
      exact .drop (isCopyLoop_isSuperCall hloop) (.refl rest)
    | false =>
      obtain ⟨o, ho, h⟩ := bind_eq_ok.1 h
      obtain ⟨rest', rfl, rfl⟩ := Option.map_eq_some_iff.1 (Except.ok.inj h)
      exact .cons rfl id (ih ho)

/-- Leaving it out lets nothing touch the instance earlier. -/
theorem Node.dropCopyLoop_noEarlier
    (h : dropCopyLoop arguments params body = .ok (params', body')) :
    NoEarlier stands body' body := by
  unfold dropCopyLoop at h
  split at h
  · split at h
    · obtain ⟨o, ho, h⟩ := bind_eq_ok.1 h
      rcases o with _ | rest <;> cases h
      · exact .refl body
      · exact withoutCopyLoop?_noEarlier ho
    · cases h
      exact .refl body
  · cases h
    exact .refl body

end

/-- The draft of a constructor calls `super(…)`, and has nothing before it but
    what stood before the call of the superclass. -/
theorem ConstructorDraft.withSuper_noEarlier (stands : Text → Bool) {before after whole : List Node}
    {c : SuperCall} (h : withSuper params before c after whole = .ok draft) :
    ∃ rest, NoEarlier stands draft.body
      (before ++ .exprStmt (.call .superExpr c.arguments false) :: rest) := by
  unfold withSuper at h
  dsimp only at h
  split at h
  · obtain ⟨⟨params', body'⟩, hdrop, h⟩ := bind_eq_ok.1 h
    cases h
    rw [append_assoc] at hdrop
    exact ⟨_, dropCopyLoop_noEarlier hdrop⟩
  · split at h
    · obtain ⟨⟨params', body'⟩, hdrop, h⟩ := bind_eq_ok.1 h
      cases h
      rw [append_assoc] at hdrop
      exact ⟨_, dropCopyLoop_noEarlier hdrop⟩
    · obtain ⟨⟨params', body'⟩, hdrop, h⟩ := bind_eq_ok.1 h
      cases h
      rw [append_assoc] at hdrop
      exact ⟨_, (noEarlier_filterDeclarators stands _ body').trans (dropCopyLoop_noEarlier hdrop)⟩

/-- Where there is a superclass, the draft is empty or is made around the first
    call of the superclass. -/
theorem ClassNames.draft?_cases {names : ClassNames} {heritage : Heritage}
    (hsuper : heritage.superClass.isSome = true)
    (h : names.draft? heritage params compiled = .ok (some draft)) :
    draft.body = [] ∨ ∃ before c after, heritage.findSuperCall? [] (names.ownStatements compiled) =
      .ok (some (before, c, after)) ∧
      ConstructorDraft.withSuper params before c after (names.ownStatements compiled) =
        .ok draft := by
  obtain ⟨statements, hstatements, h⟩ := bind_eq_ok.1 h
  have hown : names.ownStatements compiled =
      (statements.filter (!names.isCallCheck ·)).map unwrapAssertions := by
    rw [ownStatements, hstatements]
    rfl
  rw [← hown, if_pos hsuper] at h
  obtain ⟨o, ho, h⟩ := bind_eq_ok.1 h
  rcases o with _ | ⟨before, c, after⟩
  · dsimp only at h
    split at h <;> cases h
    exact .inl (List.isEmpty_iff.1 ‹_›)
  · obtain ⟨draft', hdraft', h⟩ := bind_eq_ok.1 h
    cases h
    exact .inr ⟨before, c, after, ho, hdraft'⟩

/-- What becomes of a draft that is not empty: `this` is put back, definitions
    of properties become assignments, and a return at the end goes. -/
theorem ConstructorDraft.finish_cases (h : draft.finish compiled = .ok (some m)) :
    draft.body ≠ [] ∧ m = .method (.identifier "constructor")
      (.functionExpr none draft.params
        (compiled.withStatements (dropReturn draft.kept
          ((inlineThisAliases draft.inlined.toList draft.body).map definedProperty))) false false)
      .constructor false false := by
  obtain ⟨-, -, h⟩ := bind_eq_ok.1 h
  dsimp only at h
  split at h <;> cases h
  rename_i hkept
  refine ⟨fun hnil => hkept ?_, rfl⟩
  -- a constructor without statements is left out
  have hinline (extra : List Text) : inlineThisAliases extra [] = [] := by
    unfold inlineThisAliases
    dsimp only
    split <;> rfl
  rw [hnil, hinline]
  rfl

/-! ## What a constructor touches -/

/-- Up to the call of `super(…)`, a constructor touches what its draft does
    without aliases. -/
theorem SortedClass.touchesEarly?_constructor {p : SortedClass} {m' : Node}
    (hp : f.sorted? className = .ok (some p))
    (hm : p.draft.finish f.body.declaration.functionBody = .ok (some m))
    (hm' : p.reference.rebuildMember m = .ok m') :
    ∃ body, m'.constructorBody? = some body ∧
      touchesEarly? noNames body =
        touchesEarly? p.standsForThis (withoutAliases p.aliases p.draft.body) := by
  obtain ⟨before, -, -, hr, -⟩ := sorted?_cases hp
  obtain ⟨old, hold⟩ := sorted?_statements hp
  obtain ⟨-, rfl⟩ := ConstructorDraft.finish_cases hm
  obtain ⟨body, hbody, hresolved⟩ := Reference.rebuildMember_constructor hold hm'
  refine ⟨body, hbody, ?_⟩
  -- the changes are undone from the last one to the first one
  rw [Reference.touchesEarly?_resolveInMethod (fun _ _ => ofName?_isSuperForm hr) hresolved,
    touchesEarly?_resolveHeld, touchesEarly?_dropReturn, touchesEarly?_definedProperty,
    touchesEarly?_inlineThisAliases]
  rfl

/-- The only member that can be the constructor is the drafted one. -/
theorem SortedClass.exists_constructor {p : SortedClass} {c : RebuiltClass} {body : List Node}
    (hp : f.sorted? className = .ok (some p))
    (hc : p.finish f.body.declaration.functionBody = .ok c) (hm : m ∈ c.members)
    (hbody : m.constructorBody? = some body) :
    ∃ m', p.draft.finish f.body.declaration.functionBody = .ok (some m') ∧
      p.reference.rebuildMember m' = .ok m := by
  obtain ⟨ctor, hctor, hmembers, -⟩ := finish_cases hc
  obtain ⟨m', hm', hmm'⟩ := exists_of_forall₂ hmembers hm
  rcases mem_append.1 hm' with hm' | hm'
  · obtain rfl := Option.mem_toList.1 hm'
    exact ⟨m', hctor, hmm'⟩
  · -- the other members are methods of other kinds, or fields
    have hshape := sorted?_shape hp m' hm'
    obtain ⟨hmethod, hfield⟩ := Reference.rebuildMember_shape [.get, .set, .method] hmm'
    rw [← hmethod, ← hfield] at hshape
    unfold constructorBody? at hbody
    split at hbody
    · rename_i id _ _ _ _ _ _
      cases id <;> rcases hshape with hshape | hshape <;> cases hshape
    · cases hbody

/-- The constructor of a class with a superclass calls `super(…)`. It does so
    before it touches the instance if the compiled constructor called the
    superclass before it did; and exactly if the draft of the constructor calls
    `super(…)` first, when aliases of `this` stand for the instance and the
    declarators that make them are left out. -/
theorem constructor_callsSuperFirst_iff {f : Factory} {className : Text} {c : RebuiltClass}
    {m : Node} {body : List Node} (h : f.rebuild className = .ok (some c))
    (hsuper : c.superClass.isSome = true) (hm : m ∈ c.members)
    (hbody : m.constructorBody? = some body) :
    (∃ s ∈ body, s.isSuperCall = true) ∧
      ∃ p before call after, f.sorted? className = .ok (some p) ∧
        p.reference.heritage.findSuperCall? []
            (p.reference.names.ownStatements f.body.declaration.functionBody) =
          .ok (some (before, call, after)) ∧
        ((∀ s ∈ before, s.touches p.standsForThis = false) → CallsSuperFirst noNames body) ∧
        (CallsSuperFirst noNames body ↔
          CallsSuperFirst p.standsForThis (withoutAliases p.aliases p.draft.body)) := by
  obtain ⟨p, hp, hc⟩ := rebuild_cases h
  obtain ⟨-, -, -, hr, -, -, hdraft, -⟩ := sorted?_cases hp
  obtain ⟨-, -, -, hsuperClass, -⟩ := SortedClass.finish_cases hc
  obtain ⟨m', hm', hmm'⟩ := SortedClass.exists_constructor hp hc hm hbody
  obtain ⟨body', hbody', hearly⟩ := SortedClass.touchesEarly?_constructor hp hm' hmm'
  cases hbody'.symm.trans hbody
  rw [hsuperClass] at hsuper
  obtain ⟨before, call, after, hfind, hwith⟩ :=
    (ClassNames.draft?_cases hsuper hdraft).resolve_left (ConstructorDraft.finish_cases hm').1
  obtain ⟨rest, hdrafted⟩ := ConstructorDraft.withSuper_noEarlier p.standsForThis hwith
  have hnoEarlier : NoEarlier p.standsForThis (withoutAliases p.aliases p.draft.body) _ :=
    (noEarlier_filterDeclarators p.standsForThis _ _).trans hdrafted
  -- the call of the superclass is there when the draft is made, and no later
  -- change takes it away
  have hcompiled : (touchesEarly? p.standsForThis
      (before ++ .exprStmt (.call .superExpr call.arguments false) :: rest)).isSome = true := by
    rw [touchesEarly?_isSome, any_append]
    exact Bool.or_eq_true_iff.2 (.inr rfl)
  have hsome : (touchesEarly? noNames body).isSome = true := by
    obtain ⟨early, hcompiled⟩ := Option.isSome_iff_exists.1 hcompiled
    obtain ⟨early', hearly', -⟩ := hnoEarlier early hcompiled
    rw [hearly]
    exact Option.isSome_iff_exists.2 ⟨early', hearly'⟩
  rw [touchesEarly?_isSome, any_eq_true] at hsome
  refine ⟨hsome, p, before, call, after, hp, hfind, fun hbefore => ?_, ?_⟩
  · obtain ⟨early, hearly', himp⟩ :=
      hnoEarlier false (callsSuperFirst_iff.1 ⟨before, _, rest, rfl, rfl, hbefore⟩)
    rw [callsSuperFirst_iff, hearly]
    rw [Bool.eq_false_iff.2 fun htrue => Bool.false_ne_true (himp htrue)] at hearly'
    exact hearly'
  · rw [callsSuperFirst_iff, callsSuperFirst_iff, hearly]

/-- `Dog = function (_A) { _inherits(Dog, _A); function Dog() { … } var _proto =
    Dog.prototype; return Dog; }(Animal)` -/
def derivedDog (ctor : List Node) : Node :=
  dogDeclarator [callingWith (.identifier "_inherits") [.identifier "Dog", .identifier "_A"]] ctor
    [] [] [.identifier "Animal"]

/-- `_A.call(this)` -/
def superclassCalled : Node :=
  .call (.member (.identifier "_A") (.identifier "call") false false) [.thisExpr] false

/-- `var _this; log(); _this = _A.call(this) || this; log(_this); return
    _this;` -/
def carefulConstructor : List Node :=
  [.varDecl .var [.declarator (.identifier "_this") none], callingWith (.identifier "log") [],
    .exprStmt (.assignment "=" (.identifier "_this") (.logical "||" superclassCalled .thisExpr)),
    callingWith (.identifier "log") [.identifier "_this"], .returnStmt (some (.identifier "_this"))]

/-- The constructor becomes `log(); super(); log(this);`. -/
theorem constructor_callsSuperFirst_iff_careful :
    ∃ f c m body, ofDeclarator? (derivedDog carefulConstructor) = .ok (some f) ∧
      f.rebuild "Dog" = .ok (some c) ∧ c.superClass.isSome = true ∧ m ∈ c.members ∧
      m.constructorBody? = some body ∧ body.length = 3 ∧ (∃ s ∈ body, s.isSuperCall = true) ∧
      ∃ p before call after, f.sorted? "Dog" = .ok (some p) ∧
        p.reference.heritage.findSuperCall? []
            (p.reference.names.ownStatements f.body.declaration.functionBody) =
          .ok (some (before, call, after)) ∧
        ((∀ s ∈ before, s.touches p.standsForThis = false) → CallsSuperFirst noNames body) ∧
        (CallsSuperFirst noNames body ↔
          CallsSuperFirst p.standsForThis (withoutAliases p.aliases p.draft.body)) := by
  obtain ⟨f, c, hf, hc, hsuper, m, hm, body, hbody, hlength⟩ : ∃ f c,
      ofDeclarator? (derivedDog carefulConstructor) = .ok (some f) ∧
      f.rebuild "Dog" = .ok (some c) ∧ c.superClass.isSome = true ∧
      ∃ m ∈ c.members, ∃ body ∈ m.constructorBody?, body.length = 3 :=
    exists_rebuilt (by decide +kernel)
  exact ⟨f, c, m, body, hf, hc, hsuper, hm, hbody, hlength,
    constructor_callsSuperFirst_iff hc hsuper hm hbody⟩

/-- The statements before `super(…)`. -/
def Node.earlyStatements (body : List Node) : List Node :=
  body.takeWhile fun s => !s.isSuperCall

/-- `this.x = y; _A.call(this);` -/
def eagerConstructor : List Node :=
  [.exprStmt (.assignment "=" (.member .thisExpr (.identifier "x") false false) (.identifier "y")),
    .exprStmt superclassCalled]

/-- A constructor that touches the instance before it calls the superclass
    becomes `this.x = y; super();`. -/
theorem constructor_touches_early :
    ∃ f c m body, ofDeclarator? (derivedDog eagerConstructor) = .ok (some f) ∧
      f.rebuild f.className = .ok (some c) ∧ c.superClass.isSome = true ∧ m ∈ c.members ∧
      m.constructorBody? = some body ∧
      ∃ s ∈ earlyStatements body, s.walk.any isThis = true ∧ s.walk.any isFunction = false := by
  obtain ⟨f, c, hf, hc, hname, hsuper, m, hm, body, hbody, hearly⟩ : ∃ f c,
      ofDeclarator? (derivedDog eagerConstructor) = .ok (some f) ∧
      f.rebuild "Dog" = .ok (some c) ∧ f.className = Text.ofString "Dog" ∧
      c.superClass.isSome = true ∧ ∃ m ∈ c.members, ∃ body ∈ m.constructorBody?,
        ∃ s ∈ earlyStatements body, s.walk.any isThis = true ∧ s.walk.any isFunction = false :=
    exists_rebuilt (by decide +kernel)
  exact ⟨f, c, m, body, hf, hname ▸ hc, hsuper, hm, hbody, hearly⟩

end Resugar
