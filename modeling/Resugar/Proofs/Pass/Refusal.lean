import Resugar.Proofs.Class.Scope
import Resugar.Proofs.Pass.Run
import Resugar.Tree.Edit

/-!
# Refused classes

A declarator that holds a factory becomes a class, unless the class is refused:
the factory is no class after all, or the statements for it cannot stand where
its declaration does. A refused class should leave no trace.
-/

namespace Resugar

/-! ## Tables without a name -/

namespace Table

variable {α : Type}

/-- The table without a name. -/
def without (t : Table α) (name : Text) : Table α :=
  t.filter fun entry => entry.1 != name

/-- A table without a name still has the other ones. -/
theorem get?_without (t : Table α) {name x : Text} (h : x ≠ name) :
    (t.without name).get? x = t.get? x := by
  induction t with
  | nil => rfl
  | cons entry t ih =>
    obtain ⟨k, a⟩ := entry
    rw [without] at ih ⊢
    by_cases hk : k = name
    · rw [List.filter_cons_of_neg (by simpa using hk), ih, get?_cons, if_neg (hk ▸ h)]
    · rw [List.filter_cons_of_pos (by simpa using hk), get?_cons, get?_cons, ih]

end Table

/-! ## Factories on the way -/

/-- The factories that are noted, by the variables that hold them. -/
abbrev Registry := Table Factory

/-- A factory is noted when it is found, and taken out again at once. -/
def Registry.pass (t : Registry) : Option Factory → Registry
  | some f => (t.insert f.binding f).without f.binding
  | none => t

/-- Other variables keep their factories. -/
theorem Registry.get?_pass {t : Registry} {d : Node} {found : Option Factory}
    (h : Factory.ofDeclarator? d = .ok found) {name : Text}
    (hname : ∀ init, d ≠ .declarator (.identifier name) init) :
    (t.pass found).get? name = t.get? name := by
  rcases found with _ | f
  · rfl
  · obtain ⟨⟨init, rfl⟩, -⟩ := Factory.ofDeclarator?_cases h
    have hne : name ≠ f.binding := fun heq => hname (some init) (by rw [heq])
    rw [pass, Table.get?_without _ hne, Table.get?_insert, if_neg hne]

/-! ## What a refused class reserves -/

/-- A name is reserved for the class in a declarator: the variable holds an
    instance, the class has another name, and the program refers to that outside
    of the factory. -/
structure Reserves (e : Surroundings) (elsewhere : Refs) (d : Node) (f : Factory) : Prop where
  classes : e.config.classes = true
  factory : Factory.ofDeclarator? d = .ok (some f)
  wrapped : f.encoding = .newWrapped
  renamed : f.className ≠ f.binding
  referred : f.function.countReferences f.className < elsewhere f.className +
    d.countReferences f.className

variable {e : Surroundings} {s s' : PassState}

/-- A refused class leaves the state as it is, or reserves one name. -/
theorem classAt?_refused {kind : VariableKind} {inList alone : Bool} {elsewhere : Refs} {d : Node}
    (h : e.classAt? kind inList alone elsewhere d s = .ok (none, s')) :
    (∀ f, ¬Reserves e elsewhere d f) ∧ s' = s ∨ ∃ f, Reserves e elsewhere d f ∧
      s' = { s with names := s.names.insert (s.names.fresh f.className) } := by
  rw [Surroundings.classAt?] at h
  split at h
  · rename_i hclasses
    obtain ⟨f?, s₁, hlift, h⟩ := PassM.bind_eq_ok.1 h
    obtain ⟨hf?, rfl⟩ := PassM.lift_eq_ok.1 hlift
    rcases f? with _ | f
    · cases h
      refine .inl ⟨fun f hf => ?_, rfl⟩
      cases hf.factory.symm.trans hf?
    · obtain ⟨name, s₁, hname, h⟩ := PassM.bind_eq_ok.1 h
      -- from here on, a refusal takes nothing back and adds nothing
      have hs : s' = s₁ := by
        obtain ⟨c, s₂, hlift, h⟩ := PassM.bind_eq_ok.1 h
        obtain ⟨-, rfl⟩ := PassM.lift_eq_ok.1 hlift
        rcases hss : c.bind (f.toStatements kind name) with _ | ss
        · rw [hss] at h
          cases h
          rfl
        · rw [hss] at h
          dsimp only at h
          split at h <;> cases h
          rfl
      subst hs
      rw [Surroundings.nameClass] at hname
      split at hname
      · rename_i hreserves
        obtain ⟨hwrapped, hrenamed, hreferred⟩ := hreserves
        cases hname
        exact .inr ⟨f, ⟨hclasses, hf?, hwrapped, hrenamed, Nat.lt_of_sub_pos hreferred⟩, rfl⟩
      · rename_i hfree
        cases hname
        refine .inl ⟨fun g hg => ?_, rfl⟩
        cases hg.factory.symm.trans hf?
        exact hfree ⟨hg.wrapped, hg.renamed, Nat.sub_pos_of_lt hg.referred⟩
  · rename_i hclasses
    cases h
    exact .inl ⟨fun f hf => hclasses hf.classes, rfl⟩

/-- A name that is reserved is a trace. -/
theorem Names.insert_fresh_ne (names : Names) (base : Text) :
    names.insert (names.fresh base) ≠ names := by
  intro heq
  refine names.fresh_not_mem base ?_
  rw [← heq, Names.mem_insert, heq]
  exact .inr rfl

/-! ## Rebuilding the class of one declarator -/

/-- A declarator in a program, with the ways to its declaration. -/
structure DeclaratorSite where
  program : Node
  container : Path
  declaration : Path
  kind : VariableKind
  before : List Node
  declarator : Node
  after : List Node

namespace DeclaratorSite

variable (x : DeclaratorSite)

/-- Where the container holds the declaration. -/
def slot? : Option (String × Option Nat) :=
  x.program.slotOf? x.container x.declaration

/-- Whether it is the only declarator of its declaration. -/
def alone : Bool :=
  x.before.isEmpty && x.after.isEmpty

/-- The program with statements in place of the declarator. -/
def put (inList : Bool) (statements : List Node) : Node :=
  let new := Visit.declaration x.kind x.before ++ statements ++ Visit.declaration x.kind x.after
  let changed? :=
    if inList then x.program.replaceInList? x.container x.declaration new
    else new.head?.bind (x.program.replaceChild? x.container x.declaration)
  changed?.getD x.program

/-- Rebuild the class of the declarator: whether it was rebuilt, the program and
    the noted factories. -/
def reconstruct (e : Surroundings) (elsewhere : Refs) (t : Registry) :
    PassM (Bool × Node × Registry) := do
  let found ← (Factory.ofDeclarator? x.declarator : Except Fault (Option Factory))
  let t := t.pass found
  match x.slot? with
  | none => return (false, x.program, t)
  | some (_, index) =>
    match ← e.classAt? x.kind index.isSome x.alone elsewhere x.declarator with
    | none => return (false, x.program, t)
    | some statements => return (true, x.put index.isSome statements, t)

variable {x} {elsewhere : Refs} {t t' : Registry} {program : Node}

/-- If a class is refused, the program stays, and at most a factory was noted
    and a name reserved. -/
theorem reconstruct_refused (h : x.reconstruct e elsewhere t s = .ok ((false, program, t'), s')) :
    program = x.program ∧
      (∃ found, Factory.ofDeclarator? x.declarator = .ok found ∧ t' = t.pass found) ∧
      (x.slot? = none ∧ s' = s ∨ ∃ field index, x.slot? = some (field, index) ∧
        e.classAt? x.kind index.isSome x.alone elsewhere x.declarator s = .ok (none, s')) := by
  obtain ⟨found, s₁, hlift, h⟩ := PassM.bind_eq_ok.1 h
  obtain ⟨hfound, rfl⟩ := PassM.lift_eq_ok.1 hlift
  rcases hslot : x.slot? with _ | ⟨field, index⟩
  · rw [hslot] at h
    cases h
    exact ⟨rfl, ⟨found, hfound, rfl⟩, .inl ⟨rfl, rfl⟩⟩
  · rw [hslot] at h
    obtain ⟨o, s₁, ho, h⟩ := PassM.bind_eq_ok.1 h
    rcases o with _ | statements
    · cases h
      exact ⟨rfl, ⟨found, hfound, rfl⟩, .inr ⟨field, index, rfl, ho⟩⟩
    · cases h

end DeclaratorSite

/-! ## Visits that meet a refused class -/

theorem PassM.bind_of_ok {α β : Type} {m : PassM α} {f : α → PassM β} {a : α}
    (h : m s = .ok (a, s')) : (m >>= f) s = f a s' := by
  change m s >>= (fun p => f p.1 p.2) = _
  rw [h]
  rfl

/-- The visit of declarators goes on from one that is no class: it becomes an
    import, or it stays. -/
def Visit.goOn (e : Surroundings) (kind : VariableKind) (inList : Bool) (outside : Refs)
    (done : List Node) (d : Node) (rest : List (Node × Visit)) : PassM (List Node) := do
  let alone := done.isEmpty && rest.isEmpty
  if ← e.takeImport inList alone d then declarators e kind inList outside done rest
  else
    PassM.noteSighting ⟨d, inList, alone, .kept⟩
    declarators e kind inList outside (done ++ [d]) rest

/-- A visit meets the declarator of a site: the nodes below it are visited, and
    those after it are not. -/
structure DeclaratorSite.Met (x : DeclaratorSite) (elsewhere outside : Refs) (n : Node) (v : Visit)
    (rest : List (Node × Visit)) (s₀ s : PassState) : Prop where
  isDeclarator : n.isDeclarator = true
  after : rest.map (·.1) = x.after
  refs : (outside.plus (.ofNodes x.before)).plus (Visit.refs rest) = elsewhere
  visited : v.single false elsewhere s₀ = .ok (x.declarator, s)

/-- A visit goes on from a declarator that becomes no class. -/
theorem DeclaratorSite.Met.declarators_eq {x : DeclaratorSite} {elsewhere outside : Refs} {n : Node}
    {v : Visit} {rest : List (Node × Visit)} {s₀ : PassState}
    (hmet : x.Met elsewhere outside n v rest s₀ s) {inList : Bool}
    (h : e.classAt? x.kind inList x.alone elsewhere x.declarator s = .ok (none, s')) :
    Visit.declarators e x.kind inList outside x.before ((n, v) :: rest) s₀ =
      Visit.goOn e x.kind inList outside x.before x.declarator rest s' := by
  obtain ⟨hn, hafter, hrefs, hvisited⟩ := hmet
  have halone : x.alone = (x.before.isEmpty && rest.isEmpty) := by
    rw [DeclaratorSite.alone, ← hafter, List.isEmpty_map]
  rw [halone] at h
  subst hrefs
  rw [Visit.declarators, if_pos hn, PassM.bind_of_ok hvisited, PassM.bind_of_ok h]
  rfl

/-- A refused class leaves the program and the factories of other variables as
    they are, and of the state it changes the names in use at most. A visit that
    meets it goes on with the declarator as it stands. The state is as before if
    and only if no name was reserved for the class. -/
theorem refused_class_traceless_iff {x : DeclaratorSite} {elsewhere : Refs} {t t' : Registry}
    {program : Node} (h : x.reconstruct e elsewhere t s = .ok ((false, program, t'), s')) :
    program = x.program ∧
      (∀ name, (∀ init, x.declarator ≠ .declarator (.identifier name) init) →
        t'.get? name = t.get? name) ∧
      (∀ field index outside n v rest s₀,
        x.slot? = some (field, index) → x.Met elsewhere outside n v rest s₀ s →
          Visit.declarators e x.kind index.isSome outside x.before ((n, v) :: rest) s₀ =
            Visit.goOn e x.kind index.isSome outside x.before x.declarator rest s') ∧
      s' = { s with names := s'.names } ∧
      (s' = s ↔ (x.slot?.isSome = true → ∀ f, ¬Reserves e elsewhere x.declarator f)) := by
  obtain ⟨hprogram, ⟨found, hfound, rfl⟩, hclass⟩ := DeclaratorSite.reconstruct_refused h
  refine ⟨hprogram, fun name hname => Registry.get?_pass hfound hname, ?_⟩
  obtain ⟨hslot, rfl⟩ | ⟨field, index, hslot, hclass⟩ := hclass
  · -- a declaration that stands nowhere is not looked at any further
    simp [hslot]
  · refine ⟨fun field' index' outside n v rest s₀ hslot' hmet => ?_, ?_⟩
    · cases hslot.symm.trans hslot'
      exact hmet.declarators_eq hclass
    · simp only [hslot, Option.isSome_some, true_implies]
      obtain ⟨hnone, rfl⟩ | ⟨f, hf, rfl⟩ := classAt?_refused hclass
      · exact ⟨rfl, fun _ => hnone, fun _ => rfl⟩
      · -- the name is the only trace, but it is one, as it was free
        refine ⟨rfl, fun heq => ?_, fun hnone => absurd hf (hnone f)⟩
        exact absurd (congrArg PassState.names heq) (s.names.insert_fresh_ne _)

/-- A test that a refusal satisfies. -/
theorem exists_refused {x : DeclaratorSite} {elsewhere : Refs} {t : Registry} {P : PassState → Prop}
    [DecidablePred P] (h : (x.reconstruct e elsewhere t s).toOption.any
      (fun r => !r.1.1 && decide (P r.2)) = true) :
    ∃ program t' s', x.reconstruct e elsewhere t s = .ok ((false, program, t'), s') ∧ P s' := by
  cases hr : x.reconstruct e elsewhere t s with
  | error fault =>
    rw [hr] at h
    cases h
  | ok r =>
    obtain ⟨⟨rebuilt, program, t'⟩, s'⟩ := r
    rw [hr] at h
    obtain ⟨hrebuilt, hP⟩ := Bool.and_eq_true_iff.1 h
    rw [Bool.not_eq_true'] at hrebuilt
    cases hrebuilt
    exact ⟨program, t', s', rfl, of_decide_eq_true hP⟩

/-- `function (_A) { function Dog() {} var _proto = Dog.prototype; return Dog;
    }(find())`, which is no class, as the argument can have effects -/
def foundDog : Node :=
  calledAtOnce ["_A"] [namedFunction "Dog" [], prototypeOf "Dog",
    .returnStmt (some (.identifier "Dog"))]
    [.call (.identifier "find") [] false]

/-- `log(Dog);` -/
def logDog : Node :=
  .exprStmt (.call (.identifier "log") [.identifier "Dog"] false)

/-- The declarator of `var name = init; log(Dog);` -/
def loggedSite (name : Text) (init : Node) : DeclaratorSite :=
  { program := .program [declaring name init, logDog]
    container := []
    declaration := [.field "body", .index 0]
    kind := .var
    before := []
    declarator := .declarator (.identifier name) (some init)
    after := [] }

/-- The state of a pass before its first step. -/
def DeclaratorSite.start (x : DeclaratorSite) : PassState :=
  { names := Names.ofProgram x.program }

/-- `var Dog = …; log(Dog);` stays, as the class has the variable's name. -/
theorem refused_class_traceless_foundDog :
    let x := loggedSite "Dog" foundDog
    ∃ program t' s',
      x.reconstruct ⟨{}, [], none⟩ (.ofNodes [logDog]) [] x.start =
        .ok ((false, program, t'), s') ∧
      program = x.program ∧ t'.get? "rex" = none ∧ s' = x.start := by
  intro x
  obtain ⟨program, t', s', h, -⟩ : ∃ program t' s',
      x.reconstruct ⟨{}, [], none⟩ (.ofNodes [logDog]) [] x.start =
        .ok ((false, program, t'), s') ∧ True :=
    exists_refused (by decide +kernel)
  obtain ⟨hprogram, hothers, -, -, htrace⟩ := refused_class_traceless_iff h
  refine ⟨program, t', s', h, hprogram, hothers "rex" fun init heq => ?_, htrace.2 fun _ f hf => ?_⟩
  · exact absurd (Node.identifier.inj (Node.declarator.inj heq).1) (by decide)
  · -- the variable holds the class itself
    have hplain : (Factory.ofDeclarator? x.declarator).toOption.join.map
        Factory.encoding = some .plain := by
      decide +kernel
    rw [hf.factory] at hplain
    cases (Option.some.inj hplain).symm.trans hf.wrapped

/-- `var rex = new (…)(); log(Dog);` reserves `Dog2` for a refused class. -/
theorem refused_class_reserves :
    let x := loggedSite "rex" (.newExpr (.parenthesized foundDog) [])
    ∃ program t' s',
      x.reconstruct ⟨{}, [], none⟩ (.ofNodes [logDog]) [] x.start =
        .ok ((false, program, t'), s') ∧
      ("Dog2" : Text) ∈ s'.names.used ∧ ("Dog2" : Text) ∉ x.start.names.used :=
  exists_refused (by decide +kernel)

end Resugar
