import Resugar.Proofs.Class.Rebuilt
import Resugar.Proofs.Class.Statements

/-!
# The scope of a rebuilt class

A class factory has names of its own (`Factory.localNames`): its parameters, the
variable for the prototype and the constructor. The class stands outside of the
factory, where these names mean nothing, or something else. All of them are
replaced in the members and in the statements around the class. The superclass
is not treated so: a parameter is replaced there only if it is the whole
superclass.
-/

namespace Resugar

open List Factory

namespace Table

variable {α : Type}

theorem get?_cons (k : Text) (v : α) (t : Table α) (x : Text) :
    get? ((k, v) :: t) x = if x = k then some v else t.get? x := by
  rw [get?, lookup_cons]
  by_cases hx : x = k
  · rw [beq_iff_eq.2 hx, if_pos hx]
  · rw [beq_false_of_ne hx, if_neg hx, get?]

/-- A table gives what was entered last. -/
theorem get?_insert (t : Table α) (name x : Text) (a : α) :
    (t.insert name a).get? x = if x = name then some a else t.get? x := by
  induction t with
  | nil => exact get?_cons name a [] x
  | cons e t ih =>
    obtain ⟨k, v⟩ := e
    rw [insert]
    split
    · rename_i hk
      rw [get?_cons, get?_cons, hk]
      split <;> rfl
    · rename_i hk
      rw [get?_cons, ih, get?_cons]
      by_cases hx : x = name
      · rw [if_neg (hx ▸ Ne.symm hk), if_pos hx, if_pos hx]
      · rw [if_neg hx, if_neg hx]

end Table

theorem Node.isIdentifier_iff {n : Node} : n.isIdentifier = true ↔ ∃ x, n = .identifier x := by
  refine ⟨fun h => ?_, ?_⟩
  · unfold isIdentifier at h
    split at h
    · exact ⟨_, rfl⟩
    · cases h
  · rintro ⟨x, rfl⟩
    rfl

namespace Factory

open Node

/-- The names of some parameters. -/
def namesOf (params : List Node) : List Text :=
  params.filterMap identifierName?

variable (f : Factory) {values : Table Node} {x : Text}

/-- The names of a factory: its parameters, the variable for the prototype and
    the constructor. -/
def localNames : List Text :=
  namesOf f.params ++ [f.body.protoName, f.body.name]

/-- The names in the arguments of a factory. -/
def givenNames : List Text :=
  f.arguments.flatMap names

/-- The parameters of a factory for which there is no argument. -/
def missingNames : List Text :=
  namesOf (f.params.drop f.arguments.length)

/-- The names in a tree mean the same outside of a factory: none is local,
    unless the arguments bring it back. -/
def InScope (n : Node) : Prop :=
  ∀ x ∈ n.names, x ∈ f.localNames → x ∈ f.givenNames

instance (n : Node) : Decidable (f.InScope n) :=
  inferInstanceAs (Decidable (∀ x ∈ n.names, x ∈ f.localNames → x ∈ f.givenNames))

/-! ## The arguments by parameter -/

section

variable {params arguments : List Node} {t : Table Node} {x : Text}

@[simp]
theorem namesOf_cons {name : Text} :
    namesOf (.identifier name :: params) = name :: namesOf params := rfl

/-- A name that is no parameter has the value that it had. -/
theorem valuesOf_get?_other (hx : x ∉ namesOf params) :
    (valuesOf params arguments t).get? x = t.get? x := by
  fun_induction valuesOf params arguments t with
  | case1 name params arguments t ih =>
    rw [namesOf_cons, mem_cons, not_or] at hx
    rw [ih hx.2, Table.get?_insert, if_neg hx.1]
  | case2 => rfl

/-- A parameter without an argument is `undefined`. -/
theorem valuesOf_get?_missing (hparams : params.all isIdentifier = true)
    (hx : x ∈ namesOf (params.drop arguments.length)) :
    (valuesOf params arguments t).get? x = some (.identifier "undefined") := by
  fun_induction valuesOf params arguments t with
  | case1 name params arguments t ih =>
    have hparams := (Bool.and_eq_true_iff.1 hparams).2
    rcases arguments with _ | ⟨a, arguments⟩
    · -- without arguments, all parameters from here on are missing, and the
      -- last one of a name counts
      by_cases hlater : x ∈ namesOf params
      · exact ih hparams hlater
      · rw [valuesOf_get?_other hlater, Table.get?_insert, if_pos]
        · rfl
        · exact (mem_cons.1 hx).resolve_right hlater
    · exact ih hparams hx
  | case2 params arguments t hcases =>
    rcases params with _ | ⟨p, params⟩
    · rw [drop_nil] at hx
      cases hx
    · obtain ⟨name, rfl⟩ := isIdentifier_iff.1 (all_eq_true.1 hparams p mem_cons_self)
      exact absurd rfl (hcases name params)

/-- Any other parameter is one of the arguments. -/
theorem valuesOf_get?_given (hparams : params.all isIdentifier = true) (hx : x ∈ namesOf params)
    (hgiven : x ∉ namesOf (params.drop arguments.length)) :
    ∃ a ∈ arguments, (valuesOf params arguments t).get? x = some a.ungroup := by
  fun_induction valuesOf params arguments t with
  | case1 name params arguments t ih =>
    have hparams := (Bool.and_eq_true_iff.1 hparams).2
    rcases arguments with _ | ⟨a, arguments⟩
    · exact absurd hx hgiven
    · by_cases hlater : x ∈ namesOf params
      · obtain ⟨b, hb, hget⟩ := ih hparams hlater hgiven
        exact ⟨b, mem_cons_of_mem _ hb, hget⟩
      · refine ⟨a, mem_cons_self, ?_⟩
        rw [valuesOf_get?_other hlater, Table.get?_insert, if_pos]
        · rfl
        · exact (mem_cons.1 hx).resolve_right hlater
  | case2 params arguments t hcases =>
    rcases params with _ | ⟨p, params⟩
    · cases hx
    · obtain ⟨name, rfl⟩ := isIdentifier_iff.1 (all_eq_true.1 hparams p mem_cons_self)
      exact absurd rfl (hcases name params)

end

variable {f} {className : Text} {r : Reference} {before : List Node}

/-- A parameter without an argument is `undefined`. -/
theorem value_of_missing (h : f.values? = some values) (hx : x ∈ f.missingNames) :
    values.get? x = some (.identifier "undefined") := by
  obtain ⟨rfl, hparams, -⟩ := values?_eq_some h
  exact valuesOf_get?_missing hparams hx

/-- A parameter with an argument has the argument for its value. -/
theorem value_of_given (h : f.values? = some values) (hx : x ∈ namesOf f.params)
    (hgiven : x ∉ f.missingNames) : ∃ a ∈ f.arguments, values.get? x = some a.ungroup := by
  obtain ⟨rfl, hparams, -⟩ := values?_eq_some h
  exact valuesOf_get?_given hparams hx hgiven

/-- No other name has a value. -/
theorem value_of_other (h : f.values? = some values) (hx : x ∉ namesOf f.params) :
    values.get? x = none := by
  obtain ⟨rfl, -⟩ := values?_eq_some h
  exact valuesOf_get?_other hx

theorem names_ungroup_subset_given {a : Node} (ha : a ∈ f.arguments) :
    a.ungroup.names ⊆ f.givenNames := by
  have hspeaks : a.Speaks ⟨(· ∈ f.givenNames), fun _ => True⟩ true :=
    ⟨fun _ x hx => mem_flatMap.2 ⟨a, ha, hx⟩, fun _ _ => trivial⟩
  exact (speaks_ungroup.2 hspeaks).1 rfl

/-! ## Names outside of a factory -/

/-- The names that the parts of a class may have outside of a factory. -/
def outside (f : Factory) (className : Text) : Vocabulary where
  name x := x ∈ f.localNames → x = className ∨ x = "undefined" ∨ x ∈ f.givenNames
  tag _ := True

/-- What a name of a factory stands for has names that can stand outside. -/
theorem ofName?_speaks (h : f.reference? className = some (r, before)) (x : Text) :
    ((r.ofName? x).getD (.identifier x)).Speaks (f.outside className) true := by
  obtain ⟨hvalues, hnames, -⟩ := reference?_cases h
  have hclass : (Node.identifier className).Speaks (f.outside className) true :=
    speaks_identifier.2 fun _ _ => .inl rfl
  unfold Reference.ofName?
  rw [hnames]
  split
  · exact speaks_member.2 ⟨hclass, speaks_identifier.2 fun h => absurd h Bool.false_ne_true⟩
  · rename_i hproto
    split
    · exact hclass
    · rename_i hctor
      by_cases hx : x ∈ namesOf f.params
      · by_cases hmissing : x ∈ f.missingNames
        · rw [value_of_missing hvalues hmissing]
          exact speaks_identifier.2 fun _ _ => .inr (.inl rfl)
        · obtain ⟨a, ha, hget⟩ := value_of_given hvalues hx hmissing
          rw [hget]
          exact ⟨fun _ y hy _ => .inr (.inr (names_ungroup_subset_given ha hy)), fun _ _ => trivial⟩
      · -- a name that stays is local only if it is the name of the class
        rw [value_of_other hvalues hx]
        refine speaks_identifier.2 fun _ hlocal => .inl ?_
        rcases mem_append.1 hlocal with hlocal | hlocal
        · exact absurd hlocal hx
        · simp only [mem_cons, not_mem_nil, or_false] at hlocal
          have hname := hlocal.resolve_left hproto
          exact hname.trans (Classical.not_not.1 fun hne => hctor ⟨hname, hne⟩)

/-- A vocabulary of all names. -/
def anything : Vocabulary where
  name _ := True
  tag _ := True

theorem fits_anything (n : Node) (role : Role) : n.Fits (ruleOf anything) role :=
  fits_ruleOf.2 ⟨fun _ _ _ => trivial, fun _ _ => trivial⟩

/-- In a factory, names can be replaced by names that can stand outside. -/
theorem resolves_outside (h : f.reference? className = some (r, before)) :
    r.Resolves (ruleOf anything) (ruleOf (f.outside className)) where
  looser := ⟨fun _ _ => tag_ruleOf.2 trivial, id, id⟩
  even := (ruleOf_simple _).even
  className := by
    rw [(reference?_cases h).2.1]
    exact ⟨used_ruleOf.2 fun _ => .inl rfl, rfl⟩
  names role x _ _ := (speaks_iff_fits.1 (ofName?_speaks h x)).of_even
    (ruleOf_simple _).even rfl role

end Factory

open Node in
/-- The names of a factory are replaced in all parts of a member. -/
theorem Reference.resolveMember_fits {R R' : Rule} {r : Reference} (hr : r.Resolves R R')
    {m m' : Node} {kinds : List MethodKind}
    (hshape : m.isMethodOf kinds = true ∨ m.isStaticField = true) (hm : m.Fits R .any)
    (h : r.resolveMember m = .ok m') : m'.Fits R' .any := by
  have hresolveKey {key : Node} {computed : Bool} (hkey : key.Fits R (.key computed)) :
      (r.resolveKey computed key).Fits R' (.key computed) := by
    cases computed with
    | false => exact hkey.unwalked_mono hr.looser.tag
    | true => exact resolve_fits hr hkey Role.noConfusion
  unfold resolveMember at h
  split at h
  · rename_i id params body isAsync isGenerator kind isStatic computed
    obtain ⟨body', hbody', h⟩ := bind_eq_ok.1 h
    cases h
    -- only the name of a function expression would be left alone, and the
    -- functions of members have none
    rcases id with _ | id
    · obtain ⟨hkey, -, hparams, hbody⟩ : _ ∧ _ ∧ _ ∧ _ := by
        simpa only [(Rule.compositional _).method, (Rule.compositional _).functionExpr] using hm
      obtain ⟨statements, hstatements, h⟩ := bind_eq_ok.1 hbody'
      obtain ⟨statements', hstatements', h⟩ := bind_eq_ok.1 h
      cases h
      refine (Rule.compositional _).method.2 ⟨hresolveKey hkey,
        (Rule.compositional _).functionExpr.2
          ⟨fun a ha => absurd ha (Option.not_mem_none a), ?_, ?_⟩⟩
      · exact forall_mem_map.2 fun p hp => resolve_fits hr (hparams p hp) Role.noConfusion
      · refine withStatements_fits hstatements fun s' hs' => ?_
        obtain ⟨s, hs, hss'⟩ := mem_of_mapM hstatements' hs'
        exact resolveInMethod_fits hr (statements_fit hstatements hbody s hs) hss'
    · rcases hshape with hshape | hshape <;> cases hshape
  · cases h
    obtain ⟨hkey, hvalue⟩ := (Rule.compositional _).classField.1 hm
    refine (Rule.compositional _).classField.2 ⟨hresolveKey hkey, fun a ha => ?_⟩
    obtain ⟨v, hv, rfl⟩ := Option.map_eq_some_iff.1 ha
    exact resolve_fits hr (hvalue v hv) Role.noConfusion
  · rename_i hmethod hfield
    cases m with
    | method key value kind isStatic computed =>
      cases value with
      | functionExpr => exact absurd rfl (hmethod _ _ _ _ _ _ _ _ _)
      | _ => rcases hshape with hshape | hshape <;> cases hshape
    | classField => exact absurd rfl (hfield _ _ _ _)
    | _ => rcases hshape with hshape | hshape <;> cases hshape

/-! ## Members and statements -/

/-- The members of a class, and the statements around it, have none of the names
    that the factory has for itself: apart from the name of the class,
    `undefined` and names that the arguments of the factory bring back. -/
theorem rebuilt_names_outside {f : Factory} {className : Text} {c : RebuiltClass}
    (h : f.rebuild className = .ok (some c)) :
    ∀ n ∈ c.leading ++ c.members ++ c.trailing, ∀ x ∈ n.names, x ∈ f.localNames →
      x = className ∨ x = "undefined" ∨ x ∈ f.givenNames := by
  obtain ⟨p, hp, hc⟩ := rebuild_cases h
  obtain ⟨before, -, -, hr, -⟩ := sorted?_cases hp
  obtain ⟨ctor, hctor, hmembers, -, hleading, htrailing⟩ := SortedClass.finish_cases hc
  have hresolves := resolves_outside hr
  have hresolve (s : Node) : (p.reference.resolve s).Speaks (f.outside className) true :=
    Node.speaks_iff_fits.2 (Reference.resolve_fits hresolves
      (fits_anything s .any) Role.noConfusion)
  have hspeaks : ∀ n ∈ c.leading ++ c.members ++ c.trailing,
      n.Speaks (f.outside className) true := by
    rw [hleading, htrailing]
    intro n hn
    simp only [mem_append] at hn
    rcases hn with (hn | hn) | hn
    · obtain ⟨s, -, rfl⟩ := mem_map.1 hn
      exact hresolve s
    · obtain ⟨m, hm, hmn⟩ := exists_of_forall₂ hmembers hn
      obtain ⟨m', hm', hmn⟩ := bind_eq_ok.1 hmn
      obtain ⟨kinds, hshape⟩ : ∃ kinds, m.isMethodOf kinds = true ∨ m.isStaticField = true := by
        rcases mem_append.1 hm with hm | hm
        · obtain rfl := Option.mem_toList.1 hm
          exact ⟨_, .inl (ConstructorDraft.finish_isMethodOf hctor)⟩
        · exact ⟨_, sorted?_shape hp m hm⟩
      obtain ⟨hmethod, hfield⟩ := Node.normalizeMember_shape kinds hm'
      rw [← hmethod, ← hfield] at hshape
      exact Node.speaks_iff_fits.2
        (Reference.resolveMember_fits hresolves hshape (fits_anything m' .any) hmn)
    · obtain ⟨s, -, rfl⟩ := mem_map.1 hn
      exact hresolve s
  exact fun n hn x hx => (hspeaks n hn).1 rfl x hx

/-- The members of `Dog` return the parameter of the factory, and `log(Dog)`
    stands after them; under the name `Hound`, all these names go. -/
theorem rebuilt_names_outside_hound :
    ∃ f c, ofDeclarator? sortedDog = .ok (some f) ∧ f.rebuild "Hound" = .ok (some c) ∧
      f.localNames = ["_A", "_proto", "Dog"].map Text.ofString ∧
      f.givenNames = [Text.ofString "Animal"] ∧
      ∀ n ∈ c.leading ++ c.members ++ c.trailing, ∀ x ∈ n.names, x ∈ f.localNames →
        x = "Hound" ∨ x = "undefined" ∨ x ∈ f.givenNames := by
  obtain ⟨f, c, hf, hc, hlocal, hgiven⟩ : ∃ f c, ofDeclarator? sortedDog = .ok (some f) ∧
      f.rebuild "Hound" = .ok (some c) ∧ f.localNames = ["_A", "_proto", "Dog"].map Text.ofString ∧
      f.givenNames = [Text.ofString "Animal"] := exists_rebuilt (by decide +kernel)
  exact ⟨f, c, hf, hc, hlocal, hgiven, rebuilt_names_outside hc⟩

/-! ## The superclass -/

/-- A superclass can be evaluated outside of the factory exactly if the factory
    registers a parameter, which then has an argument (or `undefined` can be
    evaluated), or something else that can be evaluated outside as it is. -/
theorem heritage_inScope_iff {f : Factory} {className : Text} {c : RebuiltClass} {s : Node}
    (h : f.rebuild className = .ok (some c)) (hs : c.superClass = some s) :
    ∃ e, f.registeredSuper? = some e ∧ (f.InScope s ↔
      (∃ p ∈ namesOf f.params, e = .identifier p ∧
        (p ∉ f.missingNames ∨ f.InScope (.identifier "undefined"))) ∨
      (∀ p ∈ namesOf f.params, e ≠ .identifier p) ∧ f.InScope e) := by
  obtain ⟨p, hp, hc⟩ := rebuild_cases h
  obtain ⟨before, -, -, hr, -⟩ := sorted?_cases hp
  obtain ⟨-, -, -, hsuper, -⟩ := SortedClass.finish_cases hc
  obtain ⟨hvalues, -, htake⟩ := reference?_cases hr
  rw [hsuper, (Heritage.take_cases htake).2] at hs
  obtain ⟨e, he, rfl⟩ := Option.map_eq_some_iff.1 hs
  refine ⟨e, he, ?_⟩
  by_cases hparam : ∃ x ∈ namesOf f.params, e = .identifier x
  · obtain ⟨x, hx, rfl⟩ := hparam
    have hother : ¬((∀ y ∈ namesOf f.params, Node.identifier x ≠ .identifier y) ∧
        f.InScope (.identifier x)) :=
      fun hother => hother.1 x hx rfl
    rw [or_iff_left hother]
    by_cases hmissing : x ∈ f.missingNames
    · rw [show (Node.identifier x).identifierName?.bind p.reference.values.get? = _ from
        value_of_missing hvalues hmissing]
      refine ⟨fun hscope => ⟨x, hx, rfl, .inr hscope⟩, ?_⟩
      rintro ⟨y, -, hxy, hgiven⟩
      cases hxy
      exact hgiven.resolve_left (absurd hmissing)
    · obtain ⟨a, ha, hget⟩ := value_of_given hvalues hx hmissing
      rw [show (Node.identifier x).identifierName?.bind p.reference.values.get? = _ from hget]
      exact ⟨fun _ => ⟨x, hx, rfl, .inl hmissing⟩,
        fun _ y hy _ => names_ungroup_subset_given ha hy⟩
  · -- anything else stands outside as it stood in the factory, with the parameters in it
    have hkept : e.identifierName?.bind p.reference.values.get? = none := by
      refine Option.bind_eq_none_iff.2 fun x hx => value_of_other hvalues
        fun hmem => hparam ⟨x, hmem, ?_⟩
      exact Node.identifierName?_eq_some.1 hx
    have hparam : ∀ x ∈ namesOf f.params, e ≠ .identifier x :=
      fun x hx hex => hparam ⟨x, hx, hex⟩
    rw [hkept]
    refine ⟨fun hscope => .inr ⟨hparam, hscope⟩, ?_⟩
    rintro (⟨x, hx, hex, -⟩ | ⟨-, hscope⟩)
    · exact absurd hex (hparam x hx)
    · exact hscope

/-- `_inherits(Dog, _A)` registers a parameter: `Dog` extends the argument. -/
theorem heritage_inScope_iff_sortedDog :
    ∃ f c, ofDeclarator? sortedDog = .ok (some f) ∧ f.rebuild "Dog" = .ok (some c) ∧
      c.superClass = some (.identifier "Animal") ∧ f.InScope (.identifier "Animal") ∧
      ∃ e, f.registeredSuper? = some e ∧ (f.InScope (.identifier "Animal") ↔
        (∃ p ∈ namesOf f.params, e = .identifier p ∧
          (p ∉ f.missingNames ∨ f.InScope (.identifier "undefined"))) ∨
        (∀ p ∈ namesOf f.params, e ≠ .identifier p) ∧ f.InScope e) := by
  obtain ⟨f, c, hf, hc, hsuper, hscope⟩ : ∃ f c, ofDeclarator? sortedDog = .ok (some f) ∧
      f.rebuild "Dog" = .ok (some c) ∧ c.superClass.bind Node.identifierName? =
        some "Animal" ∧ f.InScope (.identifier "Animal") :=
    exists_rebuilt (by decide +kernel)
  obtain ⟨s, hs, hname⟩ := Option.bind_eq_some_iff.1 hsuper
  obtain rfl := Node.identifierName?_eq_some.1 hname
  exact ⟨f, c, hf, hc, hs, hscope, heritage_inScope_iff hc hs⟩

/-- `Dog = function (_A) { _inherits(Dog, _A.Base); function Dog() {} var _proto
    = Dog.prototype; return Dog; }(Animal)` -/
def baseDog : Node :=
  dogDeclarator [callingWith (.identifier "_inherits")
    [.identifier "Dog", .member (.identifier "_A") (.identifier "Base") false false]] [] []
      [] [.identifier "Animal"]

/-- A parameter inside of the superclass is kept: `Dog` extends `_A.Base`. -/
theorem heritage_outOfScope :
    ∃ f c, ofDeclarator? baseDog = .ok (some f) ∧ f.rebuild f.className = .ok (some c) ∧
      ∃ s ∈ c.superClass, ¬f.InScope s := by
  obtain ⟨f, c, hf, hc, hname, hscope⟩ : ∃ f c, ofDeclarator? baseDog =
      .ok (some f) ∧ f.rebuild "Dog" = .ok (some c) ∧ f.className = "Dog" ∧
      ∃ s ∈ c.superClass, ¬f.InScope s :=
    exists_rebuilt (by decide +kernel)
  exact ⟨f, c, hf, hname ▸ hc, hscope⟩

end Resugar
