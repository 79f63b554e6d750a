import Resugar.Proofs.Class.Restated
import Resugar.Proofs.Class.Sorted
import Resugar.Proofs.Tree.Throughout

/-!
# The statements of a class factory

Three statements make a function a class factory: the declaration of the
constructor, the variable for its prototype right after it, and the `return` at
the end. A call that registers the superclass may come first. Every other
statement gives one thing to the class (`Reference.Contributes`): a method or a
static field; a run of methods and accessors; or itself, before the class or
after it. Nothing is lost, nothing is there twice, and all stands in the order
of the factory (`Account.Balances`).

What is given says what the statement said: a member has the key and the
function of its assignment or of its descriptor, and what leaves the factory is
restated without its names.
-/

namespace Resugar

open List Factory

/-! ## Lists that correspond -/

section

variable {α β : Type} {R : α → β → Prop}

/-- What is related to two lists put together is two lists put together. -/
theorem exists_append_of_forall₂ {l₁ l₂ : List α} {r : List β} (h : List.Forall₂ R (l₁ ++ l₂) r) :
    ∃ r₁ r₂, r = r₁ ++ r₂ ∧ List.Forall₂ R l₁ r₁ ∧ List.Forall₂ R l₂ r₂ := by
  induction l₁ generalizing r with
  | nil => exact ⟨[], r, rfl, .nil, h⟩
  | cons a l₁ ih =>
    cases h with
    | cons hab h =>
      obtain ⟨r₁, r₂, rfl, h₁, h₂⟩ := ih h
      exact ⟨_ :: r₁, r₂, rfl, .cons hab h₁, h₂⟩

/-- What is related to many lists put together falls into as many. -/
theorem exists_flatten_of_forall₂ {l : List (List α)} {r : List β}
    (h : List.Forall₂ R l.flatten r) :
    ∃ rs, r = rs.flatten ∧ List.Forall₂ (List.Forall₂ R) l rs := by
  induction l generalizing r with
  | nil =>
    cases h
    exact ⟨[], rfl, .nil⟩
  | cons a l ih =>
    obtain ⟨r₁, r₂, rfl, h₁, h₂⟩ := exists_append_of_forall₂ h
    obtain ⟨rs, rfl, hrs⟩ := ih h₂
    exact ⟨r₁ :: rs, rfl, .cons h₁ hrs⟩

end

/-! ## The statements that make a factory -/

namespace Factory

open Node

variable {f : Factory}

/-- A factory has its statements from the function that is called. -/
theorem ofCall?_cases {binding : Text} {encoding : Bool → Nat → Nat → ClassEncoding}
    {newArguments : List Node} {n : Node}
    (h : ofCall? binding encoding newArguments n = .ok (some f)) :
    f.binding = binding ∧ FactoryBody.ofStatements? f.statements = .ok (some f.body) := by
  unfold ofCall? at h
  split at h
  · split at h
    · obtain ⟨statements, -, h⟩ := bind_eq_ok.1 h
      obtain ⟨o, ho, h⟩ := bind_eq_ok.1 h
      obtain ⟨body, rfl, rfl⟩ := Option.map_eq_some_iff.1 (Except.ok.inj h)
      exact ⟨rfl, ho⟩
    · cases h
  · cases h

/-- A factory has the variable of its declarator, and its function's body. -/
theorem ofDeclarator?_cases {d : Node} (h : ofDeclarator? d = .ok (some f)) :
    (∃ init, d = .declarator (.identifier f.binding) (some init)) ∧
      FactoryBody.ofStatements? f.statements = .ok (some f.body) := by
  unfold ofDeclarator? at h
  split at h
  · rename_i name init
    suffices f.binding = name ∧ FactoryBody.ofStatements? f.statements = .ok (some f.body) by
      rw [this.1]
      exact ⟨⟨init, rfl⟩, this.2⟩
    unfold ofInitializer? at h
    split at h
    · split at h
      · exact ofCall?_cases h
      · cases h
    · exact ofCall?_cases h
  · cases h

/-- The statements of a factory are those that make it one, with others before
    and after them. -/
theorem statements_eq {d : Node} (h : ofDeclarator? d = .ok (some f)) :
    ∃ prototype result, f.body.SplitsAt prototype (f.body.after ++ [.returnStmt (some result)])
      f.statements ∧ result.ungroup = .identifier f.body.name :=
  FactoryBody.ofStatements?_splitsAt (ofDeclarator?_cases h).2

end Factory

/-! ## What a statement gives -/

namespace Node

/-- A method of one of some kinds, whose function has no name of its own. -/
def isMethodOf (kinds : List MethodKind) : Node → Bool
  | method _ (functionExpr none _ _ _ _) kind _ _ => kinds.contains kind
  | _ => false

/-- `static x = a` -/
def isStaticField : Node → Bool
  | classField _ (some _) true _ => true
  | _ => false

/-- What a list of descriptors holds. -/
def descriptors (group : Node) : List (Option Node) :=
  match group.ungroup with
  | array elements => elements
  | _ => []

/-- The descriptors in a call that registers some, each with whether it is one
    of static methods. -/
def registeredDescriptors : Node → List (Bool × Option Node)
  | exprStmt e =>
    match e.ungroup with
    | call _ (_ :: ofPrototype :: rest) _ =>
      ofPrototype.descriptors.map (false, ·) ++ (rest.flatMap descriptors).map (true, ·)
    | _ => []
  | _ => []

variable {m m' s : Node} {ms : List Node} {kinds : List MethodKind} {isStatic : Bool}

/-- A method of one of some kinds is one of more kinds. -/
theorem isMethodOf_mono {kinds' : List MethodKind} (hkinds : kinds ⊆ kinds')
    (h : m.isMethodOf kinds = true) : m.isMethodOf kinds' = true := by
  unfold isMethodOf at h ⊢
  split at h
  · exact contains_iff_mem.2 (hkinds (contains_iff_mem.1 h))
  · cases h

/-- A member stays of its kind when `this` is put back. -/
theorem normalizeMember_shape (kinds : List MethodKind) (h : m.normalizeMember = .ok m') :
    m'.isMethodOf kinds = m.isMethodOf kinds ∧ m'.isStaticField = m.isStaticField := by
  unfold normalizeMember at h
  split at h
  · rename_i id _ _ _ _ _ _ _
    obtain ⟨statements, -, h⟩ := bind_eq_ok.1 h
    obtain ⟨-, -, h⟩ := bind_eq_ok.1 h
    cases h
    cases id <;> exact ⟨rfl, rfl⟩
  · cases h
    exact ⟨rfl, rfl⟩

/-- A member with a function for its value is a method. -/
theorem methodValue?_isMethodOf {n f key : Node} {kind : MethodKind} {computed : Bool}
    (h : methodValue? n = some f) (hkind : kind ∈ kinds) :
    (method key f kind isStatic computed).isMethodOf kinds = true := by
  unfold methodValue? at h
  split at h <;> cases h
  exact contains_iff_mem.2 hkind

/-- A part of a descriptor gives methods of its kind. -/
theorem descriptorMethod?_isMethodOf {parts : Table Node} {key : Node} {computed : Bool}
    {part : String} {kind : MethodKind}
    (h : descriptorMethod? parts key computed isStatic part kind = some ms) (hkind : kind ∈ kinds) :
    ∀ m ∈ ms, m.isMethodOf kinds = true := by
  obtain ⟨-, rfl⟩ | ⟨value, f, -, hf, rfl⟩ := descriptorMethod?_cases h
  · exact forall_mem_nil _
  · exact forall_mem_singleton.2 (methodValue?_isMethodOf hf hkind)

/-- A descriptor defines at least one method or accessor. -/
theorem describedMethods?_isMethodOf {descriptor : Node}
    (h : describedMethods? isStatic descriptor = some ms) :
    ms ≠ [] ∧ ∀ m ∈ ms, m.isMethodOf [.get, .set, .method] = true := by
  obtain ⟨entries, parts, keyNode, key, computed, getters, setters, values, -, -, -, -, hgetters,
    hsetters, hvalues, rfl, hne⟩ := describedMethods?_cases h
  refine ⟨hne, forall_mem_append.2 ⟨forall_mem_append.2 ⟨?_, ?_⟩, ?_⟩⟩
  · exact descriptorMethod?_isMethodOf hgetters (by simp)
  · exact descriptorMethod?_isMethodOf hsetters (by simp)
  · exact descriptorMethod?_isMethodOf hvalues (by simp)

/-- A method that a descriptor defines has its function from the part for this
    kind of method. -/
inductive Registers (isStatic : Bool) (descriptor : Node) : Node → Prop
  | part {entries : List Node} {parts : Table Node} {keyNode value f : Node} {part : String}
    {kind : MethodKind} (hobject : descriptor.ungroup = object entries)
    (hparts : descriptorParts? entries = some parts) (hkey : parts.get? "key" = some keyNode)
    (hkind : (part, kind) ∈ [("get", .get), ("set", .set), ("value", MethodKind.method)])
    (hvalue : parts.get? part = some value) (hf : methodValue? value.ungroup = some f) :
    Registers isStatic descriptor (method (memberKey keyNode.ungroup true).1 f kind isStatic
      (memberKey keyNode.ungroup true).2)

/-- All methods of a descriptor come from its parts. -/
theorem registers_of_describedMethods? {descriptor : Node}
    (h : describedMethods? isStatic descriptor = some ms) :
    ∀ m ∈ ms, Registers isStatic descriptor m := by
  obtain ⟨entries, parts, keyNode, key, computed, getters, setters, values, hobject, hparts,
    hkeyNode, hkey, hgetters, hsetters, hvalues, rfl, -⟩ := describedMethods?_cases h
  have hregisters {part : String} {kind : MethodKind} {ms : List Node}
      (hms : descriptorMethod? parts key computed isStatic part kind = some ms)
      (hkind : (part, kind) ∈ [("get", .get), ("set", .set), ("value", MethodKind.method)]) :
      ∀ m ∈ ms, Registers isStatic descriptor m := by
    obtain ⟨-, rfl⟩ | ⟨value, f, hvalue, hf, rfl⟩ := descriptorMethod?_cases hms
    · exact forall_mem_nil _
    · have hregisters : Registers isStatic descriptor _ :=
        .part hobject hparts hkeyNode hkind hvalue hf
      rw [hkey] at hregisters
      exact forall_mem_singleton.2 hregisters
  refine forall_mem_append.2 ⟨forall_mem_append.2 ⟨?_, ?_⟩, ?_⟩
  · exact hregisters hgetters (by simp)
  · exact hregisters hsetters (by simp)
  · exact hregisters hvalues (by simp)

/-- Every descriptor of a list defines its own methods. -/
theorem describedGroup?_runs {group : Node} {o : Option (List Node)}
    (h : describedGroup? isStatic group = some o) :
    ∃ runs, o.getD [] = runs.flatten ∧
      List.Forall₂ (fun (d : Bool × Option Node) run => d.2.bind (describedMethods? d.1) = some run)
        (group.descriptors.map (isStatic, ·)) runs := by
  obtain ⟨hnullish, rfl⟩ | ⟨elements, runs, helements, rfl, hruns⟩ := describedGroup?_cases h
  · -- a list that is missing has no descriptors
    refine ⟨[], rfl, ?_⟩
    unfold descriptors
    split
    · rename_i heq
      rw [heq] at hnullish
      cases hnullish
    · exact .nil
  · refine ⟨runs, rfl, ?_⟩
    unfold descriptors
    rw [helements, forall₂_map_left_iff]
    exact hruns

end Node

namespace ClassNames

open Node

/-- A statement, and the member that it defines by an assignment. -/
inductive Assigns (names : ClassNames) : Node → Node → Prop
  /-- `Dog.prototype.m = function () { … }` -/
  | method {e receiver property right f : Node} {computed o isStatic : Bool}
    (he : e.ungroup = .assignment "=" (.member receiver property computed o) right)
    (hreceiver : names.isStaticReceiver? receiver = some isStatic)
    (hf : methodValue? right.ungroup = some f) (hself : right.ungroup.refersToItself = .ok false) :
    Assigns names (.exprStmt e) (.method (memberKey property computed).1 f .method isStatic
      (memberKey property computed).2)
  /-- `Dog.x = a` -/
  | field {e receiver property right : Node} {computed o : Bool}
    (he : e.ungroup = .assignment "=" (.member receiver property computed o) right)
    (hreceiver : names.isStaticReceiver? receiver = some true)
    (hright : methodValue? right.ungroup = none) :
    Assigns names (.exprStmt e) (.classField (memberKey property computed).1 (some right) true
      (memberKey property computed).2)

variable {names : ClassNames} {s : Node}

/-- A member that is assigned comes from an assignment. -/
theorem assigns_of_assignedMember? {m : Node} (h : names.assignedMember? s = .ok (some m)) :
    names.Assigns s m := by
  obtain ⟨e, receiver, property, computed, o, right, isStatic, rfl, he, hreceiver, hm⟩ :=
    assignedMember?_cases h
  obtain ⟨f, hf, hself, rfl⟩ | ⟨hright, rfl, rfl⟩ := hm
  · exact .method he hreceiver hf hself
  · exact .field he hreceiver hright

/-- An assignment gives a method or a static field. -/
theorem assignedMember?_shape {m : Node} (h : names.assignedMember? s = .ok (some m)) :
    m.isMethodOf [.method] = true ∨ m.isStaticField = true := by
  obtain ⟨e, receiver, property, computed, o, right, isStatic, -, -, -, hm⟩ :=
    assignedMember?_cases h
  obtain ⟨f, hf, -, rfl⟩ | ⟨-, -, rfl⟩ := hm
  · exact .inl (methodValue?_isMethodOf hf (by simp))
  · exact .inr rfl

/-- The members that a call registers fall into runs, by descriptor. -/
theorem registeredMembers?_runs {ms : List Node} (h : names.registeredMembers? s = some ms) :
    ∃ runs, ms = runs.flatten ∧
      List.Forall₂ (fun (d : Bool × Option Node) run => d.2.bind (describedMethods? d.1) = some run)
        s.registeredDescriptors runs := by
  obtain ⟨e, callee, target, ofPrototype, rest, o, first, second, rfl, he, -, hrest,
    hfirst, hsecond, rfl⟩ :=
    registeredMembers?_cases h
  obtain ⟨runs, hruns, hfirst⟩ := describedGroup?_runs hfirst
  obtain ⟨runs', hruns', hsecond⟩ : ∃ runs', second.getD [] = runs'.flatten ∧
      List.Forall₂ (fun (d : Bool × Option Node) run => d.2.bind (describedMethods? d.1) = some run)
        ((rest.flatMap descriptors).map (true, ·)) runs' := by
    rcases rest with _ | ⟨ofClass, _ | ⟨_, _⟩⟩
    · cases hsecond
      exact ⟨[], rfl, .nil⟩
    · rw [flatMap_singleton]
      exact describedGroup?_runs hsecond
    · exact absurd hrest (by simp)
  refine ⟨runs ++ runs', by rw [hruns, hruns', flatten_append], ?_⟩
  unfold registeredDescriptors
  dsimp only
  rw [he]
  exact rel_append hfirst hsecond

end ClassNames

namespace Reference

variable (r : Reference)

/-- The methods that a descriptor defines, once outside: at least one. -/
def Describes (d : Bool × Option Node) (run : List Node) : Prop :=
  run ≠ [] ∧ (∀ m ∈ run, m.isMethodOf [.get, .set, .method] = true) ∧
    ∃ ms, d.2.bind (Node.describedMethods? d.1) = some ms ∧
      (∀ m ∈ ms, ∃ descriptor ∈ d.2, Node.Registers d.1 descriptor m) ∧
      List.Forall₂ (fun m m' => r.rebuildMember m = .ok m' ∧ r.RestatesMember m m') ms run

/-- What a statement of the factory gives to the class. -/
inductive Contributes (s : Node) : Sorted → Prop
  /-- An assignment to the class, or to its prototype, gives one method or
      static field. -/
  | member {m m' : Node} (assigned : r.names.assignedMember? s = .ok (some m))
    (assigns : r.names.Assigns s m) (rebuilt : r.rebuildMember m = .ok m')
    (restated : r.RestatesMember m m')
    (shape : m'.isMethodOf [.method] = true ∨ m'.isStaticField = true) : Contributes s (.member m')
  /-- A call gives a run of methods for every descriptor that it registers. -/
  | registered {ms : List Node} {runs : List (List Node)}
    (assigned : r.names.assignedMember? s = .ok none)
    (registered : r.names.registeredMembers? s = some ms)
    (described : List.Forall₂ r.Describes s.registeredDescriptors runs) :
    Contributes s (.registered runs.flatten)
  | kept (assigned : r.names.assignedMember? s = .ok none)
    (registered : r.names.registeredMembers? s = none)
    (restated : r.Restates NoSuper false s (r.resolve s)) : Contributes s (.kept (r.resolve s))

variable {r} {m m' s : Node}

/-- A member stays of its kind when it leaves the factory. -/
theorem resolveMember_shape (kinds : List MethodKind) (h : r.resolveMember m = .ok m') :
    m'.isMethodOf kinds = m.isMethodOf kinds ∧ m'.isStaticField = m.isStaticField := by
  unfold resolveMember at h
  split at h
  · rename_i id _ _ _ _ _ _ _
    obtain ⟨body, -, h⟩ := bind_eq_ok.1 h
    cases h
    cases id <;> exact ⟨rfl, rfl⟩
  · rename_i value isStatic _
    cases h
    refine ⟨rfl, ?_⟩
    cases value <;> cases isStatic <;> rfl
  · cases h
    exact ⟨rfl, rfl⟩

/-- So it is of the same kind inside and outside. -/
theorem rebuildMember_shape (kinds : List MethodKind) (h : r.rebuildMember m = .ok m') :
    m'.isMethodOf kinds = m.isMethodOf kinds ∧ m'.isStaticField = m.isStaticField := by
  obtain ⟨n, hn, h⟩ := bind_eq_ok.1 h
  obtain ⟨hmethod, hfield⟩ := Node.normalizeMember_shape kinds hn
  obtain ⟨hmethod', hfield'⟩ := resolveMember_shape kinds h
  exact ⟨hmethod'.trans hmethod, hfield'.trans hfield⟩

/-- A member of a class says outside of the factory what it said inside. -/
theorem restatesMember_of_rebuildMember {kinds : List MethodKind}
    (hm : m.isMethodOf kinds = true ∨ m.isStaticField = true) (h : r.rebuildMember m = .ok m') :
    r.RestatesMember m m' := by
  rcases hm with hm | hm
  · unfold Node.isMethodOf at hm
    split at hm
    · exact rebuildMember_method h
    · cases hm
  · unfold Node.isStaticField at hm
    split at hm
    · exact rebuildMember_field h
    · cases hm

/-- The descriptors of a call describe what its methods become. -/
theorem exists_runs {ms ms' : List Node} (h : r.names.registeredMembers? s = some ms)
    (hms' : List.Forall₂ (fun m m' => r.rebuildMember m = .ok m') ms ms') :
    ∃ runs, ms' = runs.flatten ∧ List.Forall₂ r.Describes s.registeredDescriptors runs := by
  obtain ⟨runs, rfl, hruns⟩ := ClassNames.registeredMembers?_runs h
  obtain ⟨runs', rfl, hruns'⟩ := exists_flatten_of_forall₂ hms'
  refine ⟨runs', rfl, forall₂_comp hruns hruns' fun d run run' hrun hrun' => ?_⟩
  obtain ⟨descriptor, hdescriptor, hdescribed⟩ := Option.bind_eq_some_iff.1 hrun
  obtain ⟨hne, hmethods⟩ := Node.describedMethods?_isMethodOf hdescribed
  refine ⟨fun hnil => hne ?_, fun m' hm' => ?_, run, hrun, fun m hm => ?_, ?_⟩
  · rw [hnil] at hrun'
    exact forall₂_nil_right_iff.1 hrun'
  · obtain ⟨m, hm, hmm'⟩ := exists_of_forall₂ hrun' hm'
    rw [(rebuildMember_shape _ hmm').1]
    exact hmethods m hm
  · exact ⟨descriptor, hdescriptor, Node.registers_of_describedMethods? hdescribed m hm⟩
  · exact ((forall₂_and_left _ _).2 ⟨hmethods, hrun'⟩).imp fun m m' hmm' =>
      ⟨hmm'.2, restatesMember_of_rebuildMember (.inl hmm'.1) hmm'.2⟩

end Reference

namespace Sorted

/-- What a statement of the factory gives, inside and outside of the factory. -/
inductive Leaves (r : Reference) : Sorted → Sorted → Prop
  | member {m m' : Node} (h : r.rebuildMember m = .ok m') : Leaves r (.member m) (.member m')
  | registered {ms ms' : List Node}
    (h : List.Forall₂ (fun m m' => r.rebuildMember m = .ok m') ms ms') :
    Leaves r (.registered ms) (.registered ms')
  | kept (s : Node) : Leaves r (.kept s) (.kept (r.resolve s))

variable {r : Reference} {sorted given : List Sorted}

/-- What leaves the factory is what its statement contributes. -/
theorem Leaves.contributes {s : Node} {x y : Sorted}
    (hx : r.names.sortStatement s = .ok x) (hxy : Leaves r x y) : r.Contributes s y := by
  obtain ⟨o, ho, hx⟩ := bind_eq_ok.1 hx
  rcases o with _ | m
  · dsimp only at hx
    split at hx <;> cases hx
    · rename_i hregistered
      cases hxy with
      | registered h =>
        obtain ⟨runs, rfl, hruns⟩ := Reference.exists_runs hregistered h
        exact .registered ho hregistered hruns
    · rename_i hregistered
      cases hxy
      exact .kept ho hregistered (r.restates_resolve s)
  · cases hx
    cases hxy with
    | member h =>
      have hshape := ClassNames.assignedMember?_shape ho
      refine .member ho (ClassNames.assigns_of_assignedMember? ho) h
        (Reference.restatesMember_of_rebuildMember hshape h) ?_
      obtain ⟨hmethod, hfield⟩ := Reference.rebuildMember_shape [.method] h
      rw [hmethod, hfield]
      exact hshape

/-- What becomes of all members is what becomes of each statement's. -/
theorem exists_leaves {members registered : List Node}
    (hmembers : List.Forall₂ (fun m m' => r.rebuildMember m = .ok m')
      (sorted.filterMap member?) members)
    (hregistered : List.Forall₂ (fun m m' => r.rebuildMember m = .ok m')
      (sorted.flatMap registeredMembers) registered) :
    ∃ given, List.Forall₂ (Leaves r) sorted given ∧ given.filterMap member? = members ∧
      given.flatMap registeredMembers = registered := by
  induction sorted generalizing members registered with
  | nil =>
    cases hmembers
    cases hregistered
    exact ⟨[], .nil, rfl, rfl⟩
  | cons x sorted ih =>
    cases x with
    | member m =>
      cases hmembers with
      | cons hm hmembers =>
        obtain ⟨given, hgiven, rfl, rfl⟩ := ih hmembers hregistered
        exact ⟨_ :: given, .cons (.member hm) hgiven, rfl, rfl⟩
    | registered ms =>
      -- the run of this statement comes first in what becomes of all that is
      -- registered
      obtain ⟨ms', registered', rfl, hms', hregistered⟩ := exists_append_of_forall₂ hregistered
      obtain ⟨given, hgiven, rfl, rfl⟩ := ih hmembers hregistered
      exact ⟨_ :: given, .cons (.registered hms') hgiven, rfl, rfl⟩
    | kept s =>
      obtain ⟨given, hgiven, rfl, rfl⟩ := ih hmembers hregistered
      exact ⟨_ :: given, .cons (.kept s) hgiven, rfl, rfl⟩

/-- The statements that stay are restated, in order. -/
theorem kept_of_leaves (h : List.Forall₂ (Leaves r) sorted given) :
    given.filterMap kept? = (sorted.filterMap kept?).map r.resolve := by
  induction h with
  | nil => rfl
  | cons hxy _ ih =>
    cases hxy with
    | member | registered => exact ih
    | kept s => exact congrArg (r.resolve s :: ·) ih

end Sorted

/-! ## The parts of a class, and what becomes of them -/

namespace Factory

variable {f : Factory} {className : Text}

/-- The superclass as the first statement of the factory registers it. -/
def registeredSuper? (f : Factory) : Option Node :=
  f.body.before.head?.bind (Heritage.registered? f.body.name)

/-- The statement that registers the superclass. -/
def registration? (f : Factory) : Option Node :=
  f.body.before.head?.filter fun s => (Heritage.registered? f.body.name s).isSome

theorem registration?_isSome (f : Factory) :
    f.registration?.isSome = f.registeredSuper?.isSome := by
  unfold registration? registeredSuper?
  rcases f.body.before.head? with _ | s
  · rfl
  · rcases h : Heritage.registered? f.body.name s with _ | e <;> simp [Option.filter, h]

end Factory

/-- The superclass is what the factory registers, or what takes its place if it
    is a parameter; the other statements stay. -/
theorem Heritage.take_cases {f : Factory} {values : Table Node} {heritage : Heritage}
    {before : List Node} (h : take f.body.name values f.body.before = (heritage, before)) :
    f.body.before = f.registration?.toList ++ before ∧
      heritage.superClass = f.registeredSuper?.map fun e =>
      (e.identifierName?.bind values.get?).getD e := by
  unfold registration? registeredSuper?
  generalize f.body.before = statements at h ⊢
  unfold take at h
  split at h
  · rename_i first rest
    rw [head?_cons, Option.bind_some]
    split at h
    · rename_i superClass hsuper
      -- the first statement registers the superclass: a parameter, or something else
      rw [hsuper, Option.filter_some_pos (by rw [hsuper]; rfl), Option.map_some]
      split at h
      · rename_i name hname
        split at h <;> cases h <;> rename_i hvalue <;> simp [hname, hvalue]
      · rename_i hname
        cases h
        simp [hname]
    · rename_i hsuper
      rw [hsuper, Option.filter_some_neg (by rw [hsuper]; rfl)]
      cases h
      exact ⟨rfl, rfl⟩
  · cases h
    exact ⟨rfl, rfl⟩

/-- What leaves the factory: the constructor and the other members, each rebuilt
    on its own, the superclass, and the statements around the class. -/
theorem SortedClass.finish_cases {p : SortedClass} {compiled : Node} {c : RebuiltClass}
    (h : p.finish compiled = .ok c) :
    ∃ ctor, p.draft.finish compiled = .ok ctor ∧
      List.Forall₂ (fun m m' => p.reference.rebuildMember m = .ok m') (ctor.toList ++ p.members)
      c.members ∧ c.superClass = p.reference.heritage.superClass ∧
      c.leading = p.leading.map p.reference.resolve ∧
      c.trailing = p.trailing.map p.reference.resolve := by
  obtain ⟨ctor, hctor, h⟩ := bind_eq_ok.1 h
  obtain ⟨normalized, hnormalized, h⟩ := bind_eq_ok.1 h
  obtain ⟨members, hmembers, h⟩ := bind_eq_ok.1 h
  cases h
  refine ⟨ctor, hctor, ?_, rfl, rfl, rfl⟩
  exact forall₂_comp (forall₂_of_mapM hnormalized) (forall₂_of_mapM hmembers) fun m n m' hn hm' =>
    bind_eq_ok.2 ⟨n, hn, hm'⟩

/-- The constructor of a class, if it has one, is a method of that kind. -/
theorem ConstructorDraft.finish_isMethodOf {draft : ConstructorDraft} {compiled m : Node}
    (h : draft.finish compiled = .ok (some m)) : m.isMethodOf [.constructor] = true := by
  obtain ⟨-, -, h⟩ := bind_eq_ok.1 h
  dsimp only at h
  split at h <;> cases h
  rfl

/-- A statement gives only methods, accessors and static fields. -/
theorem ClassNames.sortStatement_shape {names : ClassNames} {s : Node} {x : Sorted}
    (h : names.sortStatement s = .ok x) :
    ∀ m ∈ x.member?.toList ++ x.registeredMembers, m.isMethodOf [.get, .set, .method] = true ∨
      m.isStaticField = true := by
  intro m hm
  obtain ⟨o, ho, h⟩ := bind_eq_ok.1 h
  rcases o with _ | m'
  · dsimp only at h
    split at h <;> cases h
    · rename_i hregistered
      obtain ⟨runs, rfl, hruns⟩ := ClassNames.registeredMembers?_runs hregistered
      obtain ⟨run, hrun, hm⟩ := mem_flatten.1 hm
      obtain ⟨d, -, hd⟩ := exists_of_forall₂ hruns hrun
      obtain ⟨descriptor, -, hdescribed⟩ := Option.bind_eq_some_iff.1 hd
      exact .inl ((Node.describedMethods?_isMethodOf hdescribed).2 m hm)
    · cases hm
  · cases h
    obtain rfl := mem_singleton.1 hm
    exact (assignedMember?_shape ho).imp_left (Node.isMethodOf_mono (by simp))

/-- The members that a factory gives are methods and static fields. -/
theorem Factory.sorted?_shape {f : Factory} {className : Text} {p : SortedClass}
    (h : f.sorted? className = .ok (some p)) :
    ∀ m ∈ p.members, m.isMethodOf [.get, .set, .method] = true ∨ m.isStaticField = true := by
  obtain ⟨before, sortedBefore, sortedAfter, -, hbefore, hafter, -, -, hmembers, -⟩ :=
    sorted?_cases h
  have hshape {x : Sorted} (hx : x ∈ sortedBefore ++ sortedAfter) :
      ∀ m ∈ x.member?.toList ++ x.registeredMembers,
        m.isMethodOf [.get, .set, .method] = true ∨ m.isStaticField = true := by
    rcases mem_append.1 hx with hx | hx
    · obtain ⟨s, -, hs⟩ := mem_of_mapM hbefore hx
      exact ClassNames.sortStatement_shape hs
    · obtain ⟨s, -, hs⟩ := mem_of_mapM hafter hx
      exact ClassNames.sortStatement_shape hs
  intro m hm
  rw [hmembers] at hm
  rcases mem_append.1 hm with hm | hm
  · obtain ⟨x, hx, hm⟩ := mem_filterMap.1 hm
    exact hshape hx m (mem_append_left _ (Option.mem_toList.2 hm))
  · obtain ⟨x, hx, hm⟩ := mem_flatMap.1 hm
    exact hshape hx m (mem_append_right _ hm)

/-! ## The account of a factory -/

/-- What becomes of the statements of a factory. -/
structure Account where
  /-- The statements before the constructor, less the one that registers the
      superclass. -/
  before : List Node
  /-- The declarator of the variable for the prototype. -/
  prototype : Node
  /-- What the factory returns. -/
  result : Node
  givenBefore : List Sorted
  givenAfter : List Sorted
  ctor : Option Node

/-- An account has all statements and all parts of a class, once, in order. -/
structure Account.Balances (a : Account) (f : Factory) (r : Reference) (c : RebuiltClass) :
    Prop where
  statements : f.statements = f.registration?.toList ++ a.before ++
    [f.body.declaration, .varDecl f.body.protoKind (a.prototype :: f.body.protoRest)] ++
    f.body.after ++ [.returnStmt (some a.result)]
  superClass : c.superClass.isSome = f.registration?.isSome
  constructor : f.body.declaration.declaresFunction f.body.name = .ok true
  prototype : a.prototype.declaredTarget = .ok (some (.identifier f.body.protoName))
  result : a.result.ungroup = .identifier f.body.name
  contributesBefore : List.Forall₂ r.Contributes a.before a.givenBefore
  contributesAfter : List.Forall₂ r.Contributes f.body.after a.givenAfter
  leading : c.leading = a.givenBefore.filterMap Sorted.kept?
  members : c.members = a.ctor.toList ++ (a.givenBefore ++ a.givenAfter).filterMap Sorted.member? ++
    (a.givenBefore ++ a.givenAfter).flatMap Sorted.registeredMembers
  trailing : c.trailing = (if f.body.protoRest.isEmpty then [] else
    [r.resolve (.varDecl f.body.protoKind f.body.protoRest)]) ++ a.givenAfter.filterMap Sorted.kept?
  ctor : ∀ m ∈ a.ctor, m.isMethodOf [.constructor] = true

/-- The members of a class are its constructor, and what each of the sorted
    statements leaves. -/
theorem SortedClass.exists_given {p : SortedClass} {ctor : Option Node}
    {sortedBefore sortedAfter : List Sorted} {members : List Node}
    (hp : p.members = (sortedBefore ++ sortedAfter).filterMap Sorted.member? ++
      (sortedBefore ++ sortedAfter).flatMap Sorted.registeredMembers)
    (h : List.Forall₂ (fun m m' => p.reference.rebuildMember m = .ok m')
      (ctor.toList ++ p.members) members) :
    ∃ ctor' givenBefore givenAfter,
      List.Forall₂ (fun m m' => p.reference.rebuildMember m = .ok m') ctor.toList ctor' ∧
      List.Forall₂ (Sorted.Leaves p.reference) sortedBefore givenBefore ∧
      List.Forall₂ (Sorted.Leaves p.reference) sortedAfter givenAfter ∧
      members = ctor' ++ (givenBefore ++ givenAfter).filterMap Sorted.member? ++
      (givenBefore ++ givenAfter).flatMap Sorted.registeredMembers := by
  rw [hp] at h
  obtain ⟨ctor', rest, rfl, hctor, h⟩ := exists_append_of_forall₂ h
  -- the members are rebuilt one by one, so that the three groups stay apart
  obtain ⟨assigned, registered, rfl, hassigned, hregistered⟩ := exists_append_of_forall₂ h
  obtain ⟨given, hgiven, rfl, rfl⟩ := Sorted.exists_leaves hassigned hregistered
  obtain ⟨givenBefore, givenAfter, rfl, hbefore, hafter⟩ := exists_append_of_forall₂ hgiven
  exact ⟨ctor', givenBefore, givenAfter, hctor, hbefore, hafter, (append_assoc _ _ _).symm⟩

/-- No statement of a class factory is lost, and none is there twice: all of
    them are accounted for by the class. -/
theorem factory_statements_accounted {d : Node} {f : Factory} {className : Text} {c : RebuiltClass}
    (hf : ofDeclarator? d = .ok (some f)) (h : f.rebuild className = .ok (some c)) :
    ∃ (r : Reference) (a : Account),
      f.reference? className = some (r, a.before) ∧ a.Balances f r c := by
  obtain ⟨p, hp, hc⟩ := rebuild_cases h
  obtain ⟨before, sortedBefore, sortedAfter, hr, hbefore, hafter, -,
    hleading, hmembers, htrailing⟩ :=
    sorted?_cases hp
  obtain ⟨-, -, htake⟩ := reference?_cases hr
  obtain ⟨hregistration, hsuper⟩ := Heritage.take_cases htake
  obtain ⟨ctor, hctor, hrebuilt, hsuperClass, hleading', htrailing'⟩ := SortedClass.finish_cases hc
  obtain ⟨ctor', givenBefore, givenAfter, hctor', hgivenBefore, hgivenAfter, hmembers'⟩ :=
    SortedClass.exists_given hmembers hrebuilt
  obtain ⟨prototype, result, hsplits, hresult⟩ := statements_eq hf
  -- a class has at most one constructor, and putting `this` and the names back
  -- leaves it one
  have hconstructor : ∃ o : Option Node, ctor' = o.toList ∧ ∀ m ∈ o,
      m.isMethodOf [.constructor] = true := by
    rcases ctor with _ | m
    · cases hctor'
      exact ⟨none, rfl, fun m hm => absurd hm (Option.not_mem_none m)⟩
    · cases hctor' with
      | cons hm hnil =>
        cases hnil
        refine ⟨some _, rfl, fun m' hm' => ?_⟩
        cases hm'
        rw [(Reference.rebuildMember_shape _ hm).1]
        exact ConstructorDraft.finish_isMethodOf hctor
  obtain ⟨o, rfl, ho⟩ := hconstructor
  refine ⟨p.reference, ⟨before, prototype, result, givenBefore, givenAfter, o⟩, hr, ?_, ?_,
    hsplits.declaration, hsplits.target, hresult, ?_, ?_, ?_, hmembers', ?_, ho⟩
  · rw [hsplits.statements, hregistration]
    simp
  · rw [hsuperClass, hsuper, Option.isSome_map, registration?_isSome]
  · exact forall₂_comp (forall₂_of_mapM hbefore) hgivenBefore fun _ _ _ => Sorted.Leaves.contributes
  · exact forall₂_comp (forall₂_of_mapM hafter) hgivenAfter fun _ _ _ => Sorted.Leaves.contributes
  · rw [hleading', hleading, Sorted.kept_of_leaves hgivenBefore]
  · rw [htrailing', htrailing, map_append, Sorted.kept_of_leaves hgivenAfter]
    congr 1
    split <;> rfl

/-! ## A factory with all kinds of statements -/

/-- A test that a factory and its class satisfy. -/
theorem exists_rebuilt {d : Node} {className : Text} {P : Factory → RebuiltClass → Prop}
    [∀ f c, Decidable (P f c)]
    (h : (ofDeclarator? d).toOption.join.any (fun f =>
      (f.rebuild className).toOption.join.any fun c => decide (P f c)) = true) :
    ∃ f c, ofDeclarator? d = .ok (some f) ∧ f.rebuild className = .ok (some c) ∧ P f c := by
  obtain ⟨f, hf, h⟩ := (Option.any_eq_true _ _).1 h
  obtain ⟨c, hc, h⟩ := (Option.any_eq_true _ _).1 h
  exact ⟨f, c, eq_ok_of_join hf, eq_ok_of_join hc, of_decide_eq_true h⟩

/-- `Dog = function (_A) { …; function Dog() { … } var _proto = Dog.prototype,
    …; …; return Dog; }(…)` -/
def dogDeclarator (before ctor protoRest after arguments : List Node) : Node :=
  let prototype := Node.declarator (.identifier "_proto")
    (some (.member (.identifier "Dog") (.identifier "prototype") false false))
  let statements := before ++
    [.functionDecl (some (.identifier "Dog")) [] (.block ctor) false false,
      .varDecl .var (prototype :: protoRest)] ++ after ++ [.returnStmt (some (.identifier "Dog"))]
  let factory := Node.functionExpr none [.identifier "_A"] (.block statements) false false
  .declarator (.identifier "Dog") (some (.call factory arguments false))

/-- `f(…);` -/
def callingWith (callee : Node) (arguments : List Node) : Node :=
  .exprStmt (.call callee arguments false)

/-- `key: …` -/
def described (key : Text) (value : Node) : Node :=
  .entry (.identifier key) value .init false false false

/-- A factory that calls `_inherits(Dog, _A)` and `setUp()` before the
    constructor, assigns the method `bark` and the static field `legs`,
    registers an accessor `age` and a static method `make`, and calls `log(Dog)`
    after it. -/
def sortedDog : Node :=
  let method :=
    Node.functionExpr none [] (.block [.returnStmt (some (.identifier "_A"))]) false false
  dogDeclarator
    [callingWith (.identifier "_inherits") [.identifier "Dog", .identifier "_A"],
      callingWith (.identifier "setUp") []]
    [callingWith (.member (.identifier "_A") (.identifier "call") false false) [.thisExpr]]
    [.declarator (.identifier "count") none]
    [.exprStmt (.assignment "="
        (.member (.identifier "_proto") (.identifier "bark") false false) method),
      .exprStmt (.assignment "="
        (.member (.identifier "Dog") (.identifier "legs") false false) (.identifier "four")),
      callingWith (.identifier "_createClass") [.identifier "Dog",
        .array [some (.object [described "key" (.literal (.string "age") none),
          described "get" method, described "set" method])],
        .array [some (.object [described "key" (.literal (.string "make") none),
          described "value" method])]],
      callingWith (.identifier "log") [.identifier "Dog"]]
    [.identifier "Animal"]

/-- One statement goes before the class and two go after it; of six members,
    three are registered. -/
theorem factory_statements_accounted_sortedDog :
    ∃ f c, ofDeclarator? sortedDog = .ok (some f) ∧ f.rebuild "Dog" = .ok (some c) ∧
      (c.leading.length = 1 ∧ c.members.length = 6 ∧ c.trailing.length = 2) ∧
      ∃ (r : Reference) (a : Account),
        f.reference? "Dog" = some (r, a.before) ∧ a.Balances f r c := by
  obtain ⟨f, c, hf, hc, hlengths⟩ : ∃ f c, ofDeclarator? sortedDog = .ok (some f) ∧
      f.rebuild "Dog" = .ok (some c) ∧ c.leading.length = 1 ∧ c.members.length = 6 ∧
      c.trailing.length = 2 :=
    exists_rebuilt (by decide +kernel)
  exact ⟨f, c, hf, hc, hlengths, factory_statements_accounted hf hc⟩

end Resugar
