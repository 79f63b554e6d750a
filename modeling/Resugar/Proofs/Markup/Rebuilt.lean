import Resugar.Proofs.Markup.Element

/-!
# What becomes of an expression in an element

Markup calls become elements, in the branches of conditional and logical
expressions too, and an element loses the grouping around it. Everything else
stays as it is (`Dialect.Rebuilds`). The children of an element come from the
arguments of the call if it has any for them, and from its props if not
(`Dialect.Makes`). Each of them gives one child, unless it is `void`
(`Node.GivesChild`).
-/

namespace Resugar

open Node

variable {d : Dialect} {n n' : Node}

/-! ## Expressions -/

/-- An expression and the same with elements in place of markup calls. -/
inductive Dialect.Rebuilds (d : Dialect) : Node → Node → Prop
  | same (n : Node) : Rebuilds d n n
  | made {callee : Node} {arguments : List Node} {o : Bool} {element : Node}
    (h : d.rebuild (.call callee arguments o) = .ok element) (helement : element.isElement = true) :
    Rebuilds d (.call callee arguments o) element
  | grouped {e e' : Node} (h : Rebuilds d e e') : Rebuilds d (.parenthesized e) (.parenthesized e')
  | ungrouped {e e' : Node} (h : Rebuilds d e e') (hcall : e.ungroup.isCall = true)
    (helement : e'.isElement = true) : Rebuilds d (.parenthesized e) e'
  | conditional (test : Node) {consequent alternate consequent' alternate' : Node}
    (h : Rebuilds d consequent consequent') (h' : Rebuilds d alternate alternate') :
    Rebuilds d (.conditional test consequent alternate) (.conditional test consequent' alternate')
  | logical (operator : Text) {left right left' right' : Node} (h : Rebuilds d left left')
    (h' : Rebuilds d right right') :
    Rebuilds d (.logical operator left right) (.logical operator left' right')

namespace Node

theorem exists_of_isElement (h : n.isElement = true) :
    ∃ name attributes children selfClosing, n = element name attributes children selfClosing := by
  unfold isElement at h
  split at h
  · exact ⟨_, _, _, _, rfl⟩
  · cases h

theorem exists_of_isCall (h : n.isCall = true) :
    ∃ callee arguments o, n = call callee arguments o := by
  unfold isCall at h
  split at h
  · exact ⟨_, _, _, rfl⟩
  · cases h

theorem isVoid_of_isElement (h : n.isElement = true) : n.isVoid = false := by
  obtain ⟨name, attributes, children, selfClosing, rfl⟩ := exists_of_isElement h
  rfl

theorem stringValue?_of_isElement (h : n.isElement = true) : n.ungroup.stringValue? = none := by
  obtain ⟨name, attributes, children, selfClosing, rfl⟩ := exists_of_isElement h
  rfl

theorem stringValue?_of_isCall (h : n.isCall = true) : n.stringValue? = none := by
  obtain ⟨callee, arguments, o, rfl⟩ := exists_of_isCall h
  rfl

end Node

namespace Dialect

/-- A markup call becomes an element or stays. -/
theorem rebuild_call_eq {callee : Node} {arguments : List Node} {o : Bool}
    (h : d.rebuild (.call callee arguments o) = .ok n') :
    n' = .call callee arguments o ∨ n'.isElement = true := by
  rw [rebuild] at h
  split at h
  · cases h
  · cases h
    exact .inl rfl
  · split at h
    · cases h
    · obtain ⟨children, -, h⟩ := bind_eq_ok.1 h
      obtain ⟨folded, -, h⟩ := bind_eq_ok.1 h
      obtain ⟨kept, -, h⟩ := bind_eq_ok.1 h
      cases h
      exact .inr rfl

theorem rebuilds_of_rebuild (h : d.rebuild n = .ok n') : d.Rebuilds n n' := by
  -- by induction on the size, as `rebuild` goes into branches and groupings
  induction hsize : n.size using Nat.strongRecOn generalizing n n' with
  | ind k ih =>
    subst hsize
    rw [rebuild.eq_def] at h
    split at h
    case h_1 e =>
      obtain ⟨e', he', h⟩ := bind_eq_ok.1 h
      cases h
      have hrebuilds := ih _ (size_lt_parenthesized e) he' rfl
      split
      · rename_i helement
        obtain ⟨hcall, helement⟩ := Bool.and_eq_true_iff.1 helement
        exact .ungrouped hrebuilds hcall helement
      · exact .grouped hrebuilds
    case h_2 test consequent alternate =>
      obtain ⟨consequent', hconsequent', h⟩ := bind_eq_ok.1 h
      obtain ⟨alternate', halternate', h⟩ := bind_eq_ok.1 h
      cases h
      exact .conditional test (ih _ (size_lt_conditional_consequent ..) hconsequent' rfl)
        (ih _ (size_lt_conditional_alternate ..) halternate' rfl)
    case h_3 operator left right =>
      obtain ⟨left', hleft', h⟩ := bind_eq_ok.1 h
      obtain ⟨right', hright', h⟩ := bind_eq_ok.1 h
      cases h
      exact .logical operator (ih _ (size_lt_logical_left ..) hleft' rfl)
        (ih _ (size_lt_logical_right ..) hright' rfl)
    case h_4 callee arguments o =>
      have hcall : d.rebuild (.call callee arguments o) = .ok n' := by rwa [rebuild]
      obtain rfl | helement := rebuild_call_eq hcall
      · exact .same _
      · exact .made hcall helement
    case h_5 =>
      cases h
      exact .same n

/-- Elements are never in the place of strings or of `void`. -/
theorem Rebuilds.isVoid_eq (h : d.Rebuilds n n') : n'.isVoid = n.isVoid := by
  cases h with
  | same => rfl
  | made _ helement => exact isVoid_of_isElement helement
  | grouped => rfl
  | ungrouped _ _ helement => exact isVoid_of_isElement helement
  | conditional => rfl
  | logical => rfl

/-- Rebuilding makes no string and takes none away. -/
theorem Rebuilds.stringValue?_ungroup (h : d.Rebuilds n n') :
    n'.ungroup.stringValue? = n.ungroup.stringValue? := by
  induction h with
  | same => rfl
  | made _ helement => exact stringValue?_of_isElement helement
  | grouped _ ih => exact ih
  | ungrouped _ hcall helement =>
    rw [stringValue?_of_isElement helement]
    exact (stringValue?_of_isCall hcall).symm
  | conditional => rfl
  | logical => rfl

end Dialect

/-! ## Calls -/

/-- The tag of a call that becomes an element, and where its other parts stand
    among the arguments. -/
theorem Dialect.frame?_parts {callee tag : Node} {rest : List Node} {f : Frame}
    (h : d.frame? callee (tag :: rest) = .ok (some f)) :
    ∃ runtime, d.runtime? callee = some runtime ∧ tag.tagName? = .ok (some f.name) ∧
      f.props = rest.head? ∧ f.children = (runtime.arrange rest.tail).2 := by
  unfold frame? at h
  split at h
  · rename_i runtime tag' rest' hruntime hcons
    cases hcons
    split at h
    · cases h
    · split at h
      · cases h
      · cases h
      · rename_i name hname
        cases h
        exact ⟨runtime, hruntime, hname, rfl, rfl⟩
  · cases h

/-- An attribute and the same with elements in place of markup calls. -/
inductive Dialect.RebuildsAttribute (d : Dialect) : Attribute → Attribute → Prop
  | named (name : Text) {value value' : Node} (h : d.rebuild value = .ok value') :
    RebuildsAttribute d (.named name value) (.named name value')
  | spread (argument : Node) : RebuildsAttribute d (.spread argument) (.spread argument)

/-- The parts of a markup call, and what they become: its arguments that are
    children, the children among its attributes, and the others. -/
structure Dialect.Makes (d : Dialect) (callee : Node) (arguments : List Node) (f : Frame)
    (attrs : List Attribute) (children folded : List Node) (kept : List Attribute) : Prop where
  frame : d.frame? callee arguments = .ok (some f)
  attributes : f.attributes = .ok attrs
  children : List.Forall₂ (fun c c' => d.rebuild c = .ok c') f.children children
  folded : List.Forall₂ (fun c c' => d.rebuild c = .ok c') (Attribute.foldedChildren attrs) folded
  kept : List.Forall₂ d.RebuildsAttribute (attrs.filter (!·.isChildren)) kept

/-- An element is made from the parts of the call that have been rebuilt. -/
theorem Dialect.element?_makes {callee : Node} {arguments : List Node} {o : Bool} {element : Node}
    (h : d.element? (.call callee arguments o) = .ok (some element)) :
    ∃ f attrs children folded kept, d.Makes callee arguments f attrs children folded kept ∧
      element = f.toElement children folded kept := by
  obtain ⟨h, helement⟩ := element?_eq_some h
  rw [rebuild] at h
  split at h
  · cases h
  · cases h
    cases helement
  · rename_i f hf
    split at h
    · cases h
    · rename_i attrs hattrs
      obtain ⟨children, hchildren, h⟩ := bind_eq_ok.1 h
      obtain ⟨folded, hfolded, h⟩ := bind_eq_ok.1 h
      obtain ⟨kept, hkept, h⟩ := bind_eq_ok.1 h
      cases h
      refine ⟨f, attrs, children, folded, kept, ⟨hf, hattrs, ?_, ?_, ?_⟩, rfl⟩
      · exact forall₂_of_attach (forall₂_of_mapM hchildren)
      · exact forall₂_of_attach (forall₂_of_mapM hfolded)
      · refine forall₂_of_attach ((forall₂_of_mapM hkept).imp fun a a' ha => ?_)
        split at ha
        · rename_i name value heq
          obtain ⟨value', hvalue', ha⟩ := bind_eq_ok.1 ha
          cases ha
          rw [heq]
          exact .named name hvalue'
        · rename_i argument heq
          cases ha
          rw [heq]
          exact .spread argument

/-! ## Children -/

/-- An expression, elements already made, gives a child of an element. -/
inductive Node.GivesChild : Node → Node → Prop
  | element {n : Node} (h : n.isElement = true) : GivesChild n n
  | container (e : Node) : GivesChild (.container e) (.container e)
  | text {n : Node} {t : Text} (h : n.ungroup.stringValue? = some t) (ht : t.isMarkupText = true) :
    GivesChild n (.markupText t)
  /-- A string that cannot stand between tags. -/
  | quoted {n : Node} {t : Text} {spelling : Option Text}
    (h : n.ungroup = .literal (.string t) spelling) (ht : t.isMarkupText = false) :
    GivesChild n (.container n.ungroup)
  | braced {n : Node} (helement : n.isElement = false) (h : n.ungroup.stringValue? = none) :
    GivesChild n (.container n)

/-- An expression gives one child, unless it is `void`. -/
theorem Node.asChildren_cases (n : Node) :
    n.isVoid = true ∧ n.asChildren = [] ∨
      n.isVoid = false ∧ ∃ c, n.asChildren = [c] ∧ n.GivesChild c := by
  unfold asChildren
  split
  · exact .inr ⟨rfl, _, rfl, .element rfl⟩
  · exact .inr ⟨rfl, _, rfl, .container _⟩
  · rename_i helement hcontainer
    cases hvoid : n.isVoid with
    | true => exact .inl ⟨rfl, rfl⟩
    | false =>
      refine .inr ⟨rfl, ?_⟩
      rw [if_neg Bool.false_ne_true]
      split
      · rename_i t spelling heq
        split
        · rename_i ht
          exact ⟨_, rfl, .text (heq ▸ rfl) ht⟩
        · rename_i ht
          rw [← heq]
          exact ⟨_, rfl, .quoted heq (Bool.not_eq_true _ ▸ ht)⟩
      · rename_i hstring
        refine ⟨_, rfl, .braced ?_ ?_⟩
        · refine Bool.eq_false_iff.2 fun h => ?_
          obtain ⟨name, attributes, children, selfClosing, h⟩ := exists_of_isElement h
          exact helement name attributes children selfClosing h
        · refine Option.eq_none_iff_forall_ne_some.2 fun t ht => ?_
          obtain ⟨spelling, ht⟩ := stringValue?_eq_some.1 ht
          exact hstring t spelling ht

/-- An expression gives a child of an element, once elements are made in it. -/
def Dialect.GivesChild (d : Dialect) (e c : Node) : Prop :=
  ∃ e', d.rebuild e = .ok e' ∧ e'.GivesChild c

/-- Expressions give one child each, in order, but for `void` ones. -/
theorem Dialect.forall₂_asChildren {es es' : List Node}
    (h : List.Forall₂ (fun e e' => d.rebuild e = .ok e') es es') :
    List.Forall₂ d.GivesChild (es.filter (!·.isVoid)) (es'.flatMap asChildren) := by
  induction h with
  | nil => exact .nil
  | @cons e e' es es' he _ ih =>
    have hvoid := (rebuilds_of_rebuild he).isVoid_eq
    rw [List.flatMap_cons]
    obtain ⟨hvoid', hchildren⟩ | ⟨hvoid', c, hchildren, hc⟩ := e'.asChildren_cases
    · rw [hchildren, List.nil_append, List.filter_cons_of_neg (by rw [← hvoid, hvoid']; decide)]
      exact ih
    · rw [hchildren, List.filter_cons_of_pos (by rw [← hvoid, hvoid']; rfl)]
      exact .cons ⟨e', he, hc⟩ ih

/-- A test that the element for a call satisfies. -/
theorem Dialect.exists_element {P : Node → Prop} [DecidablePred P]
    (h : (d.element? n).toOption.join.any (fun e => decide (P e)) = true) :
    ∃ e, d.element? n = .ok (some e) ∧ P e := by
  obtain ⟨e, he, h⟩ := (Option.any_eq_true _ _).1 h
  exact ⟨e, eq_ok_of_join he, of_decide_eq_true h⟩

end Resugar
