import Resugar.Proofs.Class.Inversion
import Resugar.Proofs.Tree.Instance

/-!
# What leaves a factory

A statement that leaves its factory says the same in other names.
`Reference.Restates` says so node by node: a name of the factory gives way to
what it stands for, the constructor of the prototype to the class, a call of a
method of the superclass to `super.m(…)`, and every other node stays, over what
the nodes below it become. A member also has `this` put back in its body
(`Reference.RestatesMember`).
-/

namespace Resugar

open Node

namespace Reference

/-- A tree, inside of the factory and outside of it. `Super` says what becomes
    of calls of methods of the superclass; `nested` is set in nested functions,
    where they stay. -/
inductive Restates (r : Reference) (Super : Node → Node → Prop) : Bool → Node → Node → Prop
  /-- A name of the factory gives way to what it stands for. -/
  | name {nested : Bool} {x : Text} {v : Node} (h : r.ofName? x = some v) :
    Restates r Super nested (.identifier x) v
  /-- The constructor of the prototype gives way to the class. -/
  | constructor {nested : Bool} {n receiver property : Node} {g : Node → Node} {computed o : Bool}
    (below : ∀ c ∈ n.children, Restates r Super (nested || n.isFunction) c (g c))
    (hn : n.withSlots (n.slotsMap g) = .member receiver property computed o)
    (hproperty : property.propertyName? computed = some (Text.ofString "constructor"))
    (hreceiver : r.names.isPrototypeRef receiver = true) :
    Restates r Super nested n (.identifier r.names.className)
  /-- A call of a method of the superclass is made on `super`. -/
  | superCall {n m : Node} {g : Node → Node}
    (below : ∀ c ∈ n.children, Restates r Super n.isFunction c (g c))
    (h : Super (n.withSlots (n.slotsMap g)) m) : Restates r Super false n m
  /-- Any other node stays, over what the nodes below it become. -/
  | node {nested : Bool} {n : Node} {g : Node → Node}
    (below : ∀ c ∈ n.children, Restates r Super (nested || n.isFunction) c (g c))
    (hname : ∀ x, n = .identifier x → r.ofName? x = none)
    (hconstructor : ∀ receiver property computed o,
      n.withSlots (n.slotsMap g) = .member receiver property computed o →
        property.propertyName? computed = some (Text.ofString "constructor") →
          r.names.isPrototypeRef receiver = false)
    (hsuper : nested = false → ∀ m, ¬Super (n.withSlots (n.slotsMap g)) m) :
    Restates r Super nested n (n.withSlots (n.slotsMap g))

/-- Nothing is called on the superclass. -/
abbrev NoSuper : Node → Node → Prop := fun _ _ => False

/-- `S.prototype.m.call(this, a)` and `super.m(a)`. -/
abbrev SuperCall (r : Reference) (isStatic : Bool) (n m : Node) : Prop :=
  r.superMethodCall? isStatic n = .ok (some m)

variable {r : Reference} {Super : Node → Node → Prop} {nested : Bool} {n n' : Node}

/-- What a node that is no call becomes, once the nodes below it have. -/
theorem resolve?_eq_some {m : Node} (h : r.resolve? n = some m) :
    (∃ x, n = .identifier x ∧ r.ofName? x = some m) ∨
      ∃ receiver property computed o, n = .member receiver property computed o ∧
        property.propertyName? computed = some (Text.ofString "constructor") ∧
          r.names.isPrototypeRef receiver = true ∧ m = .identifier r.names.className := by
  unfold resolve? at h
  split at h
  · exact .inl ⟨_, rfl, h⟩
  · split at h
    · rename_i hmember
      obtain ⟨hproperty, hreceiver⟩ := Bool.and_eq_true_iff.1 hmember
      exact .inr ⟨_, _, _, _, rfl, beq_iff_eq.1 hproperty, hreceiver, (Option.some.inj h).symm⟩
    · cases h
  · cases h

/-- Replacements that go by the names of the factory, and by `Super` outside of
    nested functions. -/
def Follows (r : Reference) (Super : Node → Node → Prop) (f : Bool → Node → Option Node) : Prop :=
  ∀ nested n m, f nested n = some m ↔ r.resolve? n = some m ∨ nested = false ∧ Super n m

/-- Only an identifier becomes an identifier when its fields are filled. -/
theorem eq_identifier_of_withSlots {slots : List (Slot Node)} {x : Text}
    (h : n.withSlots slots = .identifier x) : n = .identifier x := by
  cases n <;> first | exact h | cases h

/-- Such replacements restate a tree. -/
theorem restates_replaceAll {f : Bool → Node → Option Node} (hf : r.Follows Super f) (n : Node)
    (nested : Bool) : r.Restates Super nested n (n.replaceAll f nested) := by
  induction n using induct generalizing nested with
  | h n ih =>
    have below : ∀ c ∈ n.children, r.Restates Super (nested || n.isFunction) c
        (c.replaceAll f (nested || n.isFunction)) :=
      fun c hc => ih c (mem_parts_of_mem_children hc) _
    rw [replaceAll_eq]
    change r.Restates Super nested n
      ((f nested (n.withSlots (n.slotsMap (·.replaceAll f (nested || n.isFunction))))).getD _)
    rcases hreplaced : f nested _ with _ | m
    · -- neither the names of the factory nor the superclass have anything to say of the node
      have hnone := fun m => not_or.1 (mt (hf nested _ m).2 (by rw [hreplaced]; nofun))
      refine .node below ?_ ?_ ?_
      · rintro x rfl
        exact Option.eq_none_iff_forall_ne_some.2 fun m => (hnone m).1
      · intro receiver property computed o hn hproperty
        refine Bool.eq_false_iff.2 fun hreceiver => (hnone (.identifier r.names.className)).1 ?_
        rw [hn, resolve?, hproperty, hreceiver]
        rfl
      · exact fun hnested m hm => (hnone m).2 ⟨hnested, hm⟩
    · rcases (hf nested _ m).1 hreplaced with hresolve | ⟨rfl, hsuper⟩
      · obtain ⟨x, hn, hx⟩ | ⟨receiver, property, computed, o, hn, hproperty, hreceiver, rfl⟩ :=
          resolve?_eq_some hresolve
        · obtain rfl := eq_identifier_of_withSlots hn
          exact .name hx
        · exact .constructor below hn hproperty hreceiver
      · exact .superCall below hsuper

/-- What becomes of a statement that is kept restates it. -/
theorem restates_resolve (r : Reference) (n : Node) : r.Restates NoSuper false n (r.resolve n) :=
  restates_replaceAll (fun _ _ _ => ⟨.inl, fun h => h.resolve_right And.right⟩) n false

/-- In a method, calls of methods of the superclass are looked for outside of
    nested functions. -/
theorem follows_resolveInMethod? (r : Reference) (isStatic : Bool) :
    r.Follows (r.SuperCall isStatic) (faultless (r.resolveInMethod? isStatic)) := by
  intro nested n m
  unfold faultless resolveInMethod?
  split
  · rename_i callee arguments o
    have hresolve : r.resolve? (.call callee arguments o) = none := rfl
    rw [hresolve]
    cases nested with
    | true => exact ⟨nofun, fun h => h.elim nofun fun h => nomatch h.1⟩
    | false =>
      rw [if_neg Bool.false_ne_true]
      cases hcall : r.superMethodCall? isStatic (.call callee arguments o) <;>
        simp [SuperCall, hcall, Except.toOption]
  · rename_i hcall
    refine ⟨.inl, fun h => h.resolve_right fun h => ?_⟩
    obtain ⟨_, _, _, _, _, _, _, _, _, _, _, hn, -⟩ := superMethodCall?_cases h.2
    exact hcall _ _ _ hn

/-- What becomes of a statement in a method restates it. -/
theorem restates_of_replaceAllM {isStatic : Bool}
    (h : n.replaceAllM (r.resolveInMethod? isStatic) false = .ok n') :
    r.Restates (r.SuperCall isStatic) false n n' := by
  rw [replaceAll_of_replaceAllM h]
  exact restates_replaceAll (r.follows_resolveInMethod? isStatic) n false

end Reference

/-! ## Members -/

/-- The body of a member with `this` put back. -/
def Node.normalBody (kind : MethodKind) (statements : List Node) : List Node :=
  if kind = .constructor then resolveHeld statements
  else inlineThisAliases [] (aliasedBody statements)

namespace Reference

variable {r : Reference}

/-- A key, inside of the factory and outside of it. -/
def RestatesKey (r : Reference) (computed : Bool) (key key' : Node) : Prop :=
  if computed then r.Restates NoSuper false key key' else key' = key

/-- A member of a class, inside of the factory and outside of it. -/
inductive RestatesMember (r : Reference) : Node → Node → Prop
  /-- A method keeps all that is not in its parameters, its body and its key.
      The statements of its body are restated once `this` is put back. -/
  | method {key key' body : Node} {id : Option Node}
    {params params' statements statements' : List Node}
    {isAsync isGenerator isStatic computed : Bool} {kind : MethodKind}
    (hkey : r.RestatesKey computed key key')
    (hparams : List.Forall₂ (r.Restates NoSuper false) params params')
    (hbody : body.statements = .ok statements)
    (hstatements : List.Forall₂ (r.Restates (r.SuperCall isStatic) false)
      (normalBody kind statements) statements') :
    RestatesMember r
      (.method key (.functionExpr id params body isAsync isGenerator) kind isStatic computed)
      (.method key' (.functionExpr id params' (body.withStatements statements') isAsync isGenerator)
        kind isStatic computed)
  /-- A field keeps all that is not in its value and its key. -/
  | field {key key' value value' : Node} {isStatic computed : Bool}
    (hkey : r.RestatesKey computed key key') (hvalue : r.Restates NoSuper false value value') :
    RestatesMember r (.classField key (some value) isStatic computed)
      (.classField key' (some value') isStatic computed)

/-- A member of the class, with `this` and the names of the factory put back. -/
def rebuildMember (r : Reference) (m : Node) : Except Fault Node := do
  r.resolveMember (← m.normalizeMember)

theorem restatesKey_resolveKey (r : Reference) (computed : Bool) (key : Node) :
    r.RestatesKey computed key (r.resolveKey computed key) := by
  unfold RestatesKey resolveKey
  split
  · exact r.restates_resolve _
  · rfl

/-- A method leaves the factory with each statement restated. -/
theorem rebuildMember_method {key body : Node} {id : Option Node} {params : List Node}
    {isAsync isGenerator isStatic computed : Bool} {kind : MethodKind} {m' : Node}
    (h : r.rebuildMember (.method key (.functionExpr id params body isAsync isGenerator) kind
      isStatic computed) = .ok m') :
    r.RestatesMember (.method key (.functionExpr id params body isAsync isGenerator) kind
      isStatic computed) m' := by
  obtain ⟨normal, hnormal, h⟩ := bind_eq_ok.1 h
  obtain ⟨statements, hstatements, hnormal⟩ := bind_eq_ok.1 hnormal
  obtain ⟨-, -, hnormal⟩ := bind_eq_ok.1 hnormal
  cases hnormal
  obtain ⟨body', hbody', h⟩ := bind_eq_ok.1 h
  cases h
  obtain ⟨inside, hinside, hbody'⟩ := bind_eq_ok.1 hbody'
  obtain ⟨statements', hstatements', hbody'⟩ := bind_eq_ok.1 hbody'
  cases hbody'
  -- the body is a block before and after, so that only its statements are others
  have hnormal : inside = normalBody kind statements ∧
      (body.withStatements (normalBody kind statements)).withStatements statements' =
        body.withStatements statements' := by
    obtain rfl | rfl | rfl := statements_cases hstatements <;>
      exact ⟨(Except.ok.inj hinside).symm, rfl⟩
  obtain ⟨rfl, hbody⟩ := hnormal
  have hparams : List.Forall₂ (r.Restates NoSuper false) params (params.map r.resolve) :=
    List.forall₂_map_right_iff.2 (List.forall₂_same.2 fun p _ => r.restates_resolve p)
  have hrestated := (forall₂_of_mapM hstatements').imp fun s s' hs => restates_of_replaceAllM hs
  exact hbody ▸ .method (r.restatesKey_resolveKey computed key) hparams hstatements hrestated

/-- A static field leaves the factory with its value restated. -/
theorem rebuildMember_field {key value m' : Node} {isStatic computed : Bool}
    (h : r.rebuildMember (.classField key (some value) isStatic computed) = .ok m') :
    r.RestatesMember (.classField key (some value) isStatic computed) m' := by
  cases h
  exact .field (r.restatesKey_resolveKey computed key) (r.restates_resolve _)

end Reference

end Resugar
