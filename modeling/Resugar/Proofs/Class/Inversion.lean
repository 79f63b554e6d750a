import Resugar.Class.Rebuild
import Resugar.Proofs.Tree.Vocabulary

/-!
# The steps of rebuilding a class, read backwards

A step of rebuilding a class gives something only for statements of a certain
form. What this form is, and what the step gives then, is said here once for
every step.
-/

namespace Resugar

/-! ## The body of a factory -/

/-- The statement that keeps the prototype in a variable: a declaration, whose
    first declarator does it. -/
theorem Node.prototypeVariable?_eq_some {name protoName : Text} {kind : VariableKind} {s : Node}
    {rest : List Node} (h : s.prototypeVariable? name = .ok (some (protoName, kind, rest))) :
    ∃ first, s = .varDecl kind (first :: rest) ∧
      first.declaredTarget = .ok (some (.identifier protoName)) ∧
      ∃ v, first.declaredValue = .ok (some v) ∧ v.ungroup.isMemberOf name "prototype" = true := by
  unfold prototypeVariable? at h
  split at h
  · obtain ⟨target, htarget, h⟩ := bind_eq_ok.1 h
    split at h
    · obtain ⟨value, hvalue, h⟩ := bind_eq_ok.1 h
      dsimp only at h
      split at h <;> cases h
      obtain ⟨v, rfl, hv⟩ := (Option.any_eq_true _ _).1 ‹Option.any _ _ = true›
      exact ⟨_, rfl, htarget, v, hvalue, hv⟩
    · cases h
  · cases h

namespace FactoryBody

open Node

variable {b : FactoryBody} {name : Text} {statements : List Node}

/-- The two statements around which a body is taken apart, and the rest. -/
structure SplitsAt (b : FactoryBody) (prototype : Node) (rest statements : List Node) : Prop where
  statements : statements =
    b.before ++ [b.declaration, .varDecl b.protoKind (prototype :: b.protoRest)] ++ rest
  after : b.after = rest.dropLast
  declaration : b.declaration.declaresFunction b.name = .ok true
  target : prototype.declaredTarget = .ok (some (.identifier b.protoName))
  value : ∃ v, prototype.declaredValue = .ok (some v) ∧
    v.ungroup.isMemberOf b.name "prototype" = true

/-- Two statements that make up the middle of a body do so. -/
theorem atConstructor?_splitsAt {declaration following : Node} {rest : List Node}
    (h : atConstructor? name declaration following rest = .ok (some b)) :
    b.name = name ∧ ∃ prototype, b.SplitsAt prototype rest (declaration :: following :: rest) := by
  obtain ⟨declares, hdeclares, h⟩ := bind_eq_ok.1 h
  split at h
  · rename_i hdeclared
    obtain ⟨o, ho, h⟩ := bind_eq_ok.1 h
    obtain ⟨⟨protoName, protoKind, protoRest⟩, rfl, rfl⟩ :=
      Option.map_eq_some_iff.1 (Except.ok.inj h)
    obtain ⟨prototype, rfl, htarget, hvalue⟩ := prototypeVariable?_eq_some ho
    exact ⟨rfl, prototype, rfl, rfl, hdeclared ▸ hdeclares, htarget, hvalue⟩
  · cases h

/-- The search for the middle of a body finds it, and takes nothing away. -/
theorem split?_splitsAt (h : split? name statements = .ok (some b)) :
    b.name = name ∧ ∃ prototype rest, b.SplitsAt prototype rest statements := by
  fun_induction split? name statements generalizing b with
  | case1 s following rest ih =>
    obtain ⟨o, ho, h⟩ := bind_eq_ok.1 h
    rcases o with _ | b'
    · obtain ⟨o', ho', h⟩ := bind_eq_ok.1 h
      obtain ⟨b', rfl, rfl⟩ := Option.map_eq_some_iff.1 (Except.ok.inj h)
      obtain ⟨hname, prototype, rest', hsplit⟩ := ih ho'
      refine ⟨hname, prototype, rest', ?_, hsplit.after, hsplit.declaration,
        hsplit.target, hsplit.value⟩
      rw [hsplit.statements]
      rfl
    · cases h
      obtain ⟨hname, prototype, hsplit⟩ := atConstructor?_splitsAt ho
      exact ⟨hname, prototype, rest, hsplit⟩
  | case2 => cases h

/-- The statements of a body are those that make it, between others. -/
theorem ofStatements?_splitsAt (h : ofStatements? statements = .ok (some b)) :
    ∃ prototype result, b.SplitsAt prototype (b.after ++ [.returnStmt (some result)]) statements ∧
      result.ungroup = .identifier b.name := by
  unfold ofStatements? at h
  split at h
  · rename_i name hname
    obtain ⟨hbody, prototype, rest, hsplit⟩ := split?_splitsAt h
    unfold returned? at hname
    split at hname
    · rename_i result hlast
      -- the variable for the prototype is no `return`, so statements follow it
      rcases List.eq_nil_or_concat rest with rfl | ⟨rest', last, rfl⟩
      · rw [hsplit.statements] at hlast
        simp at hlast
      · rw [hsplit.statements] at hlast
        simp only [List.concat_eq_append, ← List.append_assoc, List.getLast?_append,
          List.getLast?_singleton, Option.some_or, Option.some.injEq] at hlast
        subst hlast
        have hafter : b.after = rest' := by simpa using hsplit.after
        refine ⟨prototype, result, ?_, hbody ▸ identifierName?_eq_some.1 hname⟩
        rw [hafter, ← List.concat_eq_append]
        exact hsplit
    · cases hname
  · cases h

end FactoryBody

/-! ## Members -/

namespace Node

variable {ms : List Node}

/-- A missing part of a descriptor gives no method; others are functions. -/
theorem descriptorMethod?_cases {parts : Table Node} {key : Node} {computed isStatic : Bool}
    {part : String} {kind : MethodKind}
    (h : descriptorMethod? parts key computed isStatic part kind = some ms) :
    parts.get? part = none ∧ ms = [] ∨ ∃ value f, parts.get? part = some value ∧
      methodValue? value.ungroup = some f ∧ ms = [method key f kind isStatic computed] := by
  unfold descriptorMethod? at h
  split at h
  · cases h
    exact .inl ⟨‹_›, rfl⟩
  · obtain ⟨f, hf, rfl⟩ := Option.map_eq_some_iff.1 h
    exact .inr ⟨_, f, ‹_›, hf, rfl⟩

/-- The methods of a descriptor are what its parts define. -/
theorem describedMethods?_cases {isStatic : Bool} {descriptor : Node}
    (h : describedMethods? isStatic descriptor = some ms) :
    ∃ entries parts keyNode key computed getters setters values,
      descriptor.ungroup = object entries ∧ descriptorParts? entries = some parts ∧
      parts.get? "key" = some keyNode ∧ memberKey keyNode.ungroup true = (key, computed) ∧
      descriptorMethod? parts key computed isStatic "get" .get = some getters ∧
      descriptorMethod? parts key computed isStatic "set" .set = some setters ∧
      descriptorMethod? parts key computed isStatic "value" .method = some values ∧
      ms = getters ++ setters ++ values ∧ ms ≠ [] := by
  unfold describedMethods? at h
  split at h
  · rename_i entries hobject
    obtain ⟨parts, hparts, h⟩ := Option.bind_eq_some_iff.1 h
    obtain ⟨keyNode, hkey, h⟩ := Option.bind_eq_some_iff.1 h
    obtain ⟨getters, hgetters, h⟩ := Option.bind_eq_some_iff.1 h
    obtain ⟨setters, hsetters, h⟩ := Option.bind_eq_some_iff.1 h
    obtain ⟨values, hvalues, h⟩ := Option.bind_eq_some_iff.1 h
    refine ⟨entries, parts, keyNode, _, _, getters, setters, values, hobject, hparts, hkey, rfl,
      hgetters, hsetters, hvalues, ?_⟩
    split at h <;> cases h
    exact ⟨rfl, ‹_›⟩
  · cases h

/-- A list of descriptors is an array, each with its own methods. -/
theorem describedGroup?_cases {isStatic : Bool} {group : Node} {o : Option (List Node)}
    (h : describedGroup? isStatic group = some o) :
    group.ungroup.isNullish = true ∧ o = none ∨ ∃ elements runs, group.ungroup = array elements ∧
      o = some runs.flatten ∧ List.Forall₂
      (fun e run => e.bind (describedMethods? isStatic) = some run) elements runs := by
  unfold describedGroup? at h
  split at h
  · cases h
    exact .inl ⟨‹_›, rfl⟩
  · split at h
    · obtain ⟨runs, hruns, h⟩ := Option.bind_eq_some_iff.1 h
      cases h
      exact .inr ⟨_, runs, ‹_›, rfl, forall₂_of_mapM? hruns⟩
    · cases h

/-- An alias holds `this`, or a property of `this` that is put back. -/
theorem thisAlias?_cases {n : Node} {e : Text × Node} (h : thisAlias? n = some e) :
    ∃ init, n = declarator (identifier e.1) (some init) ∧ e.2 = init.ungroup ∧
      (e.2 = thisExpr ∨ ∃ receiver property o, e.2 = member receiver property false o ∧
        receiver.ungroup.isThis = true) := by
  unfold thisAlias? at h
  split at h
  · rename_i name init
    obtain ⟨target, htarget, rfl⟩ := Option.map_eq_some_iff.1 h
    refine ⟨init, rfl, ?_⟩
    unfold thisAliasTarget? at htarget
    split at htarget
    · rename_i hinit
      cases htarget
      exact ⟨hinit.symm, .inl rfl⟩
    · rename_i receiver property o hinit
      split at htarget
      · rename_i hthis
        cases htarget
        exact ⟨hinit.symm, .inr ⟨receiver, property, o, rfl, (Bool.and_eq_true_iff.1 hthis).1⟩⟩
      · cases htarget
    · cases htarget
  · cases h

end Node

namespace ClassNames

open Node

variable {names : ClassNames} {s : Node}

/-- An assignment defines a method if a function is assigned that does not refer
    to itself, and else a static field. -/
theorem assignedMember?_cases {m : Node} (h : names.assignedMember? s = .ok (some m)) :
    ∃ e receiver property computed o right isStatic, s = .exprStmt e ∧
      e.ungroup = .assignment "=" (.member receiver property computed o) right ∧
      names.isStaticReceiver? receiver = some isStatic ∧
      ((∃ f, methodValue? right.ungroup = some f ∧ right.ungroup.refersToItself = .ok false ∧
          m = .method (memberKey property computed).1 f .method isStatic
            (memberKey property computed).2) ∨
        methodValue? right.ungroup = none ∧ isStatic = true ∧
          m = .classField (memberKey property computed).1 (some right) true
            (memberKey property computed).2) := by
  unfold assignedMember? at h
  split at h
  · rename_i e
    split at h
    · rename_i operator receiver property computed o right he
      split at h
      · rename_i hoperator
        subst hoperator
        split at h
        · cases h
        · rename_i isStatic hstatic
          refine ⟨e, receiver, property, computed, o, right, isStatic, rfl, he, hstatic, ?_⟩
          dsimp only at h
          split at h
          · rename_i f hf
            obtain ⟨self, hself, h⟩ := bind_eq_ok.1 h
            cases self with
            | true => cases h
            | false =>
              cases h
              exact .inl ⟨f, hf, hself, rfl⟩
          · rename_i hnone
            cases isStatic with
            | true =>
              cases h
              exact .inr ⟨hnone, rfl, rfl⟩
            | false => cases h
      · cases h
    · cases h
  · cases h

/-- A call registers descriptors for the prototype, and maybe the class. -/
theorem registeredMembers?_cases {ms : List Node} (h : names.registeredMembers? s = some ms) :
    ∃ e callee target ofPrototype rest o first second, s = .exprStmt e ∧
      e.ungroup = .call callee (target :: ofPrototype :: rest) o ∧ names.isClassRef target = true ∧
      rest.length ≤ 1 ∧ describedGroup? false ofPrototype = some first ∧
      rest.head?.elim (some none) (describedGroup? true) = some second ∧
      ms = first.getD [] ++ second.getD [] := by
  unfold registeredMembers? at h
  split at h
  · split at h
    · rename_i ofPrototype rest o he
      split at h
      · rename_i hguard
        obtain ⟨htarget, hrest⟩ := Bool.and_eq_true_iff.1 hguard
        obtain ⟨first, hfirst, h⟩ := Option.bind_eq_some_iff.1 h
        obtain ⟨second, hsecond, h⟩ := Option.bind_eq_some_iff.1 h
        refine ⟨_, _, _, ofPrototype, rest, o, first, second, rfl, he, htarget,
          of_decide_eq_true hrest, hfirst, hsecond, ?_⟩
        split at h <;> cases h
        rfl
      · cases h
    · cases h
  · cases h

end ClassNames

/-- A method of the superclass that is called on `this` by `call` or `apply`. -/
theorem Reference.superMethodCall?_cases {r : Reference} {isStatic : Bool} {n n' : Node}
    (h : r.superMethodCall? isStatic n = .ok (some n')) :
    ∃ owner property computed o callProperty callComputed o' arguments o'' name arguments',
      n = .call (.member (.member owner property computed o) callProperty callComputed o') arguments
      o'' ∧ callProperty.propertyName? callComputed = some name ∧
      r.isSuperOwner isStatic owner.ungroup = .ok true ∧ methodArguments? name arguments =
        some arguments' ∧ n' = .call (.member .superExpr property computed false) arguments'
      false := by
  unfold superMethodCall? at h
  split at h
  · rename_i owner property computed o callProperty callComputed o' arguments o''
    split at h
    · rename_i name hname
      split at h
      · obtain ⟨isSuper, howner, h⟩ := bind_eq_ok.1 h
        split at h
        · rename_i hsuper
          obtain ⟨arguments', harguments', rfl⟩ := Option.map_eq_some_iff.1 (Except.ok.inj h)
          exact ⟨owner, property, computed, o, callProperty, callComputed, o', arguments, o'', name,
            arguments', rfl, hname, hsuper ▸ howner, harguments', rfl⟩
        · cases h
      · cases h
    · cases h
  · cases h

/-! ## Classes -/

namespace Factory

variable {f : Factory} {className : Text}

/-- A class is rebuilt in two steps: it is sorted, and leaves the factory. -/
theorem rebuild_cases {c : RebuiltClass} (h : f.rebuild className = .ok (some c)) :
    ∃ p, f.sorted? className = .ok (some p) ∧ p.finish f.body.declaration.functionBody = .ok c := by
  obtain ⟨o, ho, h⟩ := bind_eq_ok.1 h
  rcases o with _ | p
  · cases h
  · obtain ⟨c', hc', h⟩ := bind_eq_ok.1 h
    cases h
    exact ⟨p, ho, hc'⟩

/-- What has to go well for the parts of a class to be sorted, and where each
    part comes from. -/
theorem sorted?_cases {p : SortedClass} (h : f.sorted? className = .ok (some p)) :
    ∃ before sortedBefore sortedAfter, f.reference? className = some (p.reference, before) ∧
      before.mapM p.reference.names.sortStatement = .ok sortedBefore ∧
      f.body.after.mapM p.reference.names.sortStatement = .ok sortedAfter ∧
      p.reference.names.draft? p.reference.heritage f.body.declaration.functionParams
        f.body.declaration.functionBody = .ok (some p.draft) ∧
      p.leading = sortedBefore.filterMap Sorted.kept? ∧
      p.members = (sortedBefore ++ sortedAfter).filterMap Sorted.member? ++
      (sortedBefore ++ sortedAfter).flatMap Sorted.registeredMembers ∧
      p.trailing =
        (if f.body.protoRest.isEmpty then []
          else [.varDecl f.body.protoKind f.body.protoRest]) ++
          sortedAfter.filterMap Sorted.kept? := by
  unfold sorted? at h
  split at h
  · cases h
  · rename_i r before hr
    obtain ⟨sortedBefore, hbefore, h⟩ := bind_eq_ok.1 h
    obtain ⟨sortedAfter, hafter, h⟩ := bind_eq_ok.1 h
    obtain ⟨o, ho, h⟩ := bind_eq_ok.1 h
    rcases o with _ | draft
    · cases h
    · cases h
      exact ⟨before, sortedBefore, sortedAfter, hr, hbefore, hafter, ho, rfl, rfl, rfl⟩

/-- What the names of a factory stand for: values, class and superclass. -/
theorem reference?_cases {r : Reference} {before : List Node}
    (h : f.reference? className = some (r, before)) :
    f.values? = some r.values ∧ r.names = ⟨className, f.body.name, f.body.protoName⟩ ∧
      Heritage.take f.body.name r.values f.body.before = (r.heritage, before) := by
  obtain ⟨values, hvalues, h⟩ := Option.map_eq_some_iff.1 h
  cases h
  exact ⟨hvalues, rfl, rfl⟩

/-- The parameters of a factory are names, and its arguments have no effects. -/
theorem values?_eq_some {values : Table Node} (h : f.values? = some values) :
    values = valuesOf f.params f.arguments [] ∧ f.params.all Node.isIdentifier = true ∧
      f.arguments.all Node.isPure = true := by
  unfold values? at h
  split at h <;> cases h
  rename_i hvalues
  simp only [Bool.and_eq_true] at hvalues
  exact ⟨rfl, hvalues.1.1.1, hvalues.1.2⟩

end Factory

end Resugar
