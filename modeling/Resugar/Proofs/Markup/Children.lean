import Resugar.Proofs.Markup.Rebuilt
import Resugar.Proofs.Markup.Writes

/-!
# The children of an element

An automatic runtime gets the children of an element as the property `children`,
which the last of the props settles that writes it. An element has its children
between its tags, and they take the place of any `children` among its
attributes. When the props become an element, all entries for `children` are put
between the tags.

So the element has all that the entries give together (`Evaluation.gathered`),
while in the props the last entry wins, or an object that is spread after it
(`Evaluation.written`). The two are the same if only the last entry for
`children` gives any, if that is one expression other than `void` or an array of
several (`Attribute.foldsWhole`), and if no object that is spread after it has
children of its own: `jsx("div", { children: "a", ...props })` becomes `<div
{...props}>a</div>`, whatever children `props` has. Where the entries do not
fold whole, the children are kept only by chance.

Values are those of any `Evaluation`. The value of a markup call is that of the
element which it becomes.
-/

namespace Resugar

open Node List Attribute

/-! ## Values -/

/-- What expressions are worth. -/
structure Evaluation (V : Type) where
  /-- The value of a property that is not there. -/
  absent : V
  string : Text → V
  list : List V → V
  /-- `a ? b : c`, by the values of `b` and `c`. -/
  choice : (test : Node) → (consequent alternate : V) → V
  /-- `a && b`, by the values of `a` and `b`. -/
  logic : (operator : Text) → (left right : V) → V
  other : Node → V
  /-- What an entry writes that has no plain name. -/
  entry : Node → Write V
  /-- What an expression writes that is spread. -/
  spread : Node → List (Write V)

/-- The value that is written last under a name. -/
def lastWrite {V : Type} (name : Text) (ws : List (Write V)) : Option V :=
  ws.reverse.lookup name

/-- What is written later counts. -/
theorem lastWrite_append {V : Type} (name : Text) (ws ws' : List (Write V)) :
    lastWrite name (ws ++ ws') = (lastWrite name ws').or (lastWrite name ws) := by
  rw [lastWrite, reverse_append, lookup_append]
  rfl

theorem lastWrite_of_ne {V : Type} {name x : Text} (h : x ≠ name) (v : V) :
    lastWrite name [(x, v)] = none := by
  rw [lastWrite, reverse_singleton, lookup_cons, beq_eq_false_iff_ne.2 h.symm]
  rfl

namespace Evaluation

variable {V : Type} (E : Evaluation V) (d : Dialect)

mutual

/-- The value of an expression, or of what stands between tags. -/
def worth : Node → V
  | .parenthesized e => worth e
  | .container e => worth e
  | .markupText t => E.string t
  | .literal (.string t) _ => E.string t
  | .array elements =>
    match items elements with
    | some values => E.list values
    | none => E.other (.array elements)
  | .conditional test consequent alternate => E.choice test (worth consequent) (worth alternate)
  | .logical operator left right => E.logic operator (worth left) (worth right)
  | .call callee arguments o =>
    E.other ((d.rebuild (.call callee arguments o)).toOption.getD (.call callee arguments o))
  | n => E.other n

/-- The values in an array without holes and spreads. -/
def items : List (Option Node) → Option (List V)
  | [] => some []
  | none :: _ => none
  | some e :: es => if e.isSpread then none else (items es).map (worth e :: ·)

end

/-- What the evaluation makes of props. -/
def props : PropsMeaning V :=
  ⟨E.string, E.worth d, E.entry, E.spread⟩

/-- The value of several children: an array, unless it is one. -/
def together : List V → Option V
  | [] => none
  | [v] => some v
  | vs => some (E.list vs)

/-- The value of `children` for an element: that of its children, or else the
    one that its attributes write. -/
def childrenOfElement : Node → V
  | .element _ attributes children _ =>
    (E.together (children.map (E.worth d))).getD
      ((lastWrite "children" (attributes.flatMap (E.props d).writesOfAttribute)).getD E.absent)
  | _ => E.absent

/-- The value of `children` that props write. -/
def childrenOfProps (n : Node) : V :=
  (lastWrite "children" ((E.props d).writesOfProps n)).getD E.absent

/-- The value of `children` that attributes write. -/
def written (attrs : List Attribute) : V :=
  (lastWrite "children" ((E.props d).writesOfAttributes attrs)).getD E.absent

variable {E d} {n n' e c : Node}

theorem worth_parenthesized (e : Node) : E.worth d (.parenthesized e) = E.worth d e := rfl

theorem worth_container (e : Node) : E.worth d (.container e) = E.worth d e := rfl

theorem worth_markupText (t : Text) : E.worth d (.markupText t) = E.string t := rfl

theorem worth_string (t : Text) (spelling : Option Text) :
    E.worth d (.literal (.string t) spelling) = E.string t := rfl

theorem worth_conditional (test consequent alternate : Node) :
    E.worth d (.conditional test consequent alternate) = E.choice test (E.worth d consequent)
      (E.worth d alternate) := rfl

theorem worth_logical (operator : Text) (left right : Node) :
    E.worth d (.logical operator left right) = E.logic operator (E.worth d left)
      (E.worth d right) := rfl

theorem worth_call (callee : Node) (arguments : List Node) (o : Bool) :
    E.worth d (.call callee arguments o) = E.other
    ((d.rebuild (.call callee arguments o)).toOption.getD (.call callee arguments o)) := rfl

theorem worth_of_isElement (h : n.isElement = true) : E.worth d n = E.other n := by
  obtain ⟨name, attributes, children, selfClosing, rfl⟩ := exists_of_isElement h
  rfl

theorem worth_ungroup (n : Node) : E.worth d n.ungroup = E.worth d n := by
  fun_induction ungroup n with
  | case1 e ih => rw [ih, worth_parenthesized]
  | case2 n => rfl

theorem worth_of_stringValue? {t : Text} (h : n.ungroup.stringValue? = some t) :
    E.worth d n = E.string t := by
  obtain ⟨spelling, h⟩ := stringValue?_eq_some.1 h
  rw [← worth_ungroup, h, worth_string]

theorem props_value (n : Node) : (E.props d).value n = E.worth d n := by
  rw [PropsMeaning.value]
  cases h : n.stringValue? with
  | none => rfl
  | some t =>
    obtain ⟨spelling, rfl⟩ := stringValue?_eq_some.1 h
    rw [worth_string]
    rfl

/-- Making elements does not change the value of an expression. -/
theorem worth_of_rebuilds (h : d.Rebuilds n n') : E.worth d n' = E.worth d n := by
  induction h with
  | same => rfl
  | made h helement =>
    rw [worth_of_isElement helement, worth_call, h]
    rfl
  | grouped _ ih => rw [worth_parenthesized, worth_parenthesized, ih]
  | ungrouped _ _ _ ih => rw [ih, worth_parenthesized]
  | conditional test _ _ ih ih' => rw [worth_conditional, worth_conditional, ih, ih']
  | logical operator _ _ ih ih' => rw [worth_logical, worth_logical, ih, ih']

theorem worth_of_givesChild (h : d.GivesChild e c) : E.worth d c = E.worth d e := by
  obtain ⟨e', he', hc⟩ := h
  rw [← worth_of_rebuilds (Dialect.rebuilds_of_rebuild he')]
  cases hc with
  | element => rfl
  | container => rfl
  | text h _ => rw [worth_markupText, worth_of_stringValue? h]
  | quoted h _ => rw [worth_container, worth_ungroup]
  | braced _ _ => rw [worth_container]

theorem map_worth_of_givesChild {es cs : List Node} (h : List.Forall₂ d.GivesChild es cs) :
    cs.map (E.worth d) = es.map (E.worth d) := by
  induction h with
  | nil => rfl
  | cons hc _ ih => rw [map_cons, map_cons, worth_of_givesChild hc, ih]

end Evaluation

/-! ## The entries for children -/

/-- Whether a value is the value of the children that it gives: no array and not
    `void`, or an array of two or more elements, none of which is a hole, a
    spread or `void`. -/
def Node.isWhole : Node → Bool
  | array elements =>
    2 ≤ elements.length && elements.all fun e => e.any fun e => !e.isVoid && !e.isSpread
  | v => !v.isVoid

/-- A value stays, or is a string that loses its spelling. -/
theorem Node.attributeExpression_cases (v : Node) :
    v.attributeExpression = v ∨ ∃ t, v.stringValue? = some t ∧
      v.attributeExpression = literal (.string t) none := by
  obtain h | ⟨t, ht, h⟩ := v.attributeValue_cases
  · left
    rw [attributeExpression, h]
  · right
    rw [attributeExpression, h]
    exact ⟨t, ht, rfl⟩

namespace Attribute

/-- Whether no child comes from an attribute. -/
def givesNoChild (a : Attribute) : Bool :=
  a.childExpressions.all isVoid

/-- Whether only the last attribute `children` gives children, and whole. -/
def foldsWhole : List Attribute → Bool
  | [] => true
  | named name value :: rest =>
    (!(named name value).isChildren ||
      if rest.any isChildren then (named name value).givesNoChild
        else value.isWhole) && foldsWhole rest
  | spread _ :: rest => foldsWhole rest

/-- The expressions for what stands between the tags: the arguments that are
    children, or else those of the attributes, but none that is `void`. -/
def between (given : List Node) (attrs : List Attribute) : List Node :=
  (if given.isEmpty then foldedChildren attrs else given).filter (!·.isVoid)

variable {attrs before after : List Attribute} {v : Node}

/-- There is no entry `children`, or there is a last one. -/
theorem exists_last_children (attrs : List Attribute) :
    (∀ a ∈ attrs, a.isChildren = false) ∨ ∃ before v after, attrs = before ++ named "children" v ::
      after ∧ ∀ a ∈ after, a.isChildren = false := by
  induction attrs with
  | nil => exact .inl (forall_mem_nil _)
  | cons a attrs ih =>
    obtain hno | ⟨before, v, after, rfl, hafter⟩ := ih
    · cases ha : a.isChildren with
      | false => exact .inl (forall_mem_cons.2 ⟨ha, hno⟩)
      | true =>
        obtain ⟨name, v⟩ | argument := a
        · obtain rfl : name = Text.ofString "children" := eq_of_beq ha
          exact .inr ⟨[], v, attrs, rfl, hno⟩
        · cases ha
    · exact .inr ⟨a :: before, v, after, rfl, hafter⟩

/-- What folding whole says of the last attribute `children` and others. -/
theorem foldsWhole_split (h : foldsWhole (before ++ named "children" v :: after) = true)
    (hafter : ∀ a ∈ after, a.isChildren = false) :
    v.isWhole = true ∧ ∀ a ∈ before, a.isChildren = true → a.givesNoChild = true := by
  induction before with
  | nil =>
    have hany : after.any isChildren = false := by simpa using hafter
    rw [nil_append, foldsWhole, hany] at h
    exact ⟨(Bool.and_eq_true_iff.1 h).1, forall_mem_nil _⟩
  | cons a before ih =>
    have hany : (before ++ named "children" v :: after).any isChildren = true :=
      any_eq_true.2 ⟨_, mem_append_right _ mem_cons_self, rfl⟩
    obtain ⟨name, value⟩ | argument := a
    · rw [cons_append, foldsWhole, hany] at h
      obtain ⟨ha, hrest⟩ := Bool.and_eq_true_iff.1 h
      obtain ⟨hv, hbefore⟩ := ih hrest
      refine ⟨hv, forall_mem_cons.2 ⟨fun hchildren => ?_, hbefore⟩⟩
      rwa [hchildren] at ha
    · obtain ⟨hv, hbefore⟩ := ih h
      exact ⟨hv, forall_mem_cons.2 ⟨fun hchildren => (by cases hchildren), hbefore⟩⟩

/-- Only the last attribute `children` gives children. -/
theorem foldedChildren_split (hbefore : ∀ a ∈ before, a.isChildren = true → a.givesNoChild = true)
    (hafter : ∀ a ∈ after, a.isChildren = false) :
    (foldedChildren (before ++ named "children" v :: after)).filter (!·.isVoid) =
      (named "children" v).childExpressions.filter (!·.isVoid) := by
  have hnone : ((before.filter isChildren).flatMap childExpressions).filter (!·.isVoid) = [] := by
    refine filter_eq_nil_iff.2 fun e he => ?_
    obtain ⟨a, ha, he⟩ := mem_flatMap.1 he
    obtain ⟨ha, hchildren⟩ := mem_filter.1 ha
    simp [all_eq_true.1 (hbefore a ha hchildren) e he]
  have hlast : after.filter isChildren = [] :=
    filter_eq_nil_iff.2 fun a ha => by simp [hafter a ha]
  rw [foldedChildren, filter_append, flatMap_append, filter_append, hnone,
    nil_append, filter_cons_of_pos (show (named "children" v).isChildren = true from rfl),
    hlast, flatMap_singleton]

end Attribute

namespace Evaluation

variable {V : Type} {E : Evaluation V} {d : Dialect}

theorem together_of_two_le {vs : List V} (h : 2 ≤ vs.length) :
    E.together vs = some (E.list vs) := by
  obtain _ | ⟨v, _ | ⟨w, vs⟩⟩ := vs
  · exact absurd h (by simp)
  · exact absurd h (by simp)
  · rfl

/-- An array without holes and spreads is worth its elements. -/
theorem items_map_some {es : List Node} (h : ∀ e ∈ es, e.isSpread = false) :
    E.items d (es.map some) = some (es.map (E.worth d)) := by
  induction es with
  | nil => rfl
  | cons e es ih =>
    obtain ⟨he, hes⟩ := forall_mem_cons.1 h
    rw [map_cons, items, he, ih hes]
    rfl

theorem worth_attributeExpression (v : Node) : E.worth d v.attributeExpression = E.worth d v := by
  obtain h | ⟨t, ht, h⟩ := v.attributeExpression_cases
  · rw [h]
  · obtain ⟨spelling, rfl⟩ := stringValue?_eq_some.1 ht
    rw [h, worth_string, worth_string]

theorem exists_map_some {p : Node → Bool} {elements : List (Option Node)}
    (h : elements.all (·.any p) = true) :
    ∃ es : List Node, elements = es.map some ∧ ∀ e ∈ es, p e = true := by
  induction elements with
  | nil => exact ⟨[], rfl, forall_mem_nil _⟩
  | cons e elements ih =>
    obtain ⟨he, helements⟩ := Bool.and_eq_true_iff.1 (all_cons ▸ h)
    obtain ⟨e, rfl, he⟩ := (Option.any_eq_true _ _).1 he
    obtain ⟨es, rfl, hes⟩ := ih helements
    exact ⟨e :: es, rfl, forall_mem_cons.2 ⟨he, hes⟩⟩

/-- A value that gives its children whole has their value. -/
theorem together_of_isWhole {v : Node} (h : v.isWhole = true) :
    E.together (((named "children" v).childExpressions.filter (!·.isVoid)).map
      (E.worth d)) = some (E.worth d v) := by
  unfold isWhole at h
  split at h
  · -- an array of two or more, with neither holes nor spreads
    rename_i elements
    obtain ⟨hlength, hall⟩ := Bool.and_eq_true_iff.1 h
    obtain ⟨es, rfl, hes⟩ := exists_map_some hall
    have hvoid : ∀ e ∈ es, (!e.isVoid) = true := fun e he => (Bool.and_eq_true_iff.1 (hes e he)).1
    have hspread : ∀ e ∈ es, e.isSpread = false :=
      fun e he => by simpa using (Bool.and_eq_true_iff.1 (hes e he)).2
    rw [childExpressions, filterMap_map, Function.id_comp, filterMap_some,
      filter_eq_self.2 hvoid, worth, items_map_some hspread, together_of_two_le]
    simpa using hlength
  · -- anything else is a child by itself
    rename_i harray
    have hexpressions : (named "children" v).childExpressions =
        [v.attributeExpression] := by
      rw [childExpressions]
      exact harray
    have hvoid : v.attributeExpression.isVoid = v.isVoid := by
      obtain h | ⟨t, ht, h⟩ := v.attributeExpression_cases
      · rw [h]
      · obtain ⟨spelling, rfl⟩ := stringValue?_eq_some.1 ht
        rw [h]
        rfl
    rw [hexpressions, filter_cons_of_pos (by rw [hvoid, h]), filter_nil,
      map_singleton, worth_attributeExpression]
    rfl

/-- Attributes but `children` write the same children once rebuilt. -/
theorem lastWrite_children_of_rebuilds {l l' : List Attribute}
    (h : List.Forall₂ d.RebuildsAttribute l l') (hl : ∀ a ∈ l, a.isChildren = false) :
    lastWrite "children" ((E.props d).writesOfAttributes l') =
      lastWrite "children" ((E.props d).writesOfAttributes l) := by
  have hcons (a : Attribute) (l : List Attribute) : (E.props d).writesOfAttributes (a :: l) =
      (E.props d).writesOfAttribute a.toNode ++ (E.props d).writesOfAttributes l := rfl
  induction h with
  | nil => rfl
  | cons ha _ ih =>
    obtain ⟨hno, hl⟩ := forall_mem_cons.1 hl
    rw [hcons, hcons, lastWrite_append, lastWrite_append, ih hl]
    cases ha with
    | spread => rfl
    | named name _ =>
      have hname : name ≠ Text.ofString "children" := beq_eq_false_iff_ne.1 hno
      rw [PropsMeaning.writesOfAttribute_named, PropsMeaning.writesOfAttribute_named,
        lastWrite_of_ne hname, lastWrite_of_ne hname]

/-- The children that attributes write when `children` stands among them. -/
theorem lastWrite_children_split (before after : List Attribute) (v : Node) :
    lastWrite "children" ((E.props d).writesOfAttributes (before ++ .named "children" v :: after)) =
      some ((lastWrite "children" ((E.props d).writesOfAttributes after)).getD (E.worth d v)) := by
  rw [PropsMeaning.writesOfAttributes, map_append, flatMap_append,
    lastWrite_append, map_cons, flatMap_cons, lastWrite_append,
    PropsMeaning.writesOfAttribute_named, props_value]
  change ((lastWrite "children" ((E.props d).writesOfAttributes after)).or
    (some (E.worth d v))).or _ = _
  cases lastWrite "children" ((E.props d).writesOfAttributes after) <;> rfl

/-- The key is no child. -/
theorem lastWrite_children_keyAttribute (f : Frame) :
    lastWrite "children" (f.keyAttribute.flatMap (E.props d).writesOfAttribute) = none := by
  unfold Frame.keyAttribute
  split
  · rfl
  · split
    · rfl
    · rw [flatMap_singleton, PropsMeaning.writesOfAttribute_named]
      exact lastWrite_of_ne (by decide) _

/-- The value of `children` for an element with these arguments and attributes:
    what stands between the tags, or what the other attributes write. -/
def gathered (E : Evaluation V) (d : Dialect) (given : List Node) (attrs : List Attribute) : V :=
  (E.together ((between given attrs).map (E.worth d))).getD
    (E.written d (attrs.filter (!·.isChildren)))

/-- The children of an element come from the arguments and attributes. -/
theorem childrenOfElement_eq {callee : Node} {arguments : List Node} {f : Frame}
    {attrs kept : List Attribute} {children folded : List Node}
    (h : d.Makes callee arguments f attrs children folded kept) :
    E.childrenOfElement d (f.toElement children folded kept) = E.gathered d f.children attrs := by
  have hkept : ∀ a ∈ attrs.filter (!·.isChildren), a.isChildren = false := fun a ha => by
    simpa using (mem_filter.1 ha).2
  have hbetween : List.Forall₂ d.GivesChild (between f.children attrs)
      ((if f.children.isEmpty then folded else children).flatMap asChildren) := by
    unfold between
    split
    · exact Dialect.forall₂_asChildren h.folded
    · exact Dialect.forall₂_asChildren h.children
  rw [gathered, written, ← lastWrite_children_of_rebuilds h.kept hkept,
    ← map_worth_of_givesChild hbetween, Frame.toElement, childrenOfElement, flatMap_append,
    lastWrite_append, lastWrite_children_keyAttribute, Option.or_none]
  rfl

/-- The children that attributes write when `children` stands among them. -/
theorem written_split (before after : List Attribute) (v : Node) :
    E.written d (before ++ .named "children" v :: after) =
      (lastWrite "children" ((E.props d).writesOfAttributes after)).getD (E.worth d v) := by
  rw [written, lastWrite_children_split]
  rfl

/-- Attributes without `children` have no children to put between the tags. -/
theorem gathered_of_forall {attrs : List Attribute} (h : ∀ a ∈ attrs, a.isChildren = false) :
    E.gathered d [] attrs = E.written d attrs := by
  have hentries : attrs.filter (·.isChildren) = [] :=
    filter_eq_nil_iff.2 fun a ha => by simp [h a ha]
  have hkept : attrs.filter (!·.isChildren) = attrs :=
    filter_eq_self.2 fun a ha => by simp [h a ha]
  rw [gathered, between, isEmpty_nil, if_pos rfl, foldedChildren, hentries,
    hkept]
  rfl

/-- Entries that fold whole have the value of the last one. -/
theorem gathered_of_foldsWhole {before after : List Attribute} {v : Node}
    (h : foldsWhole (before ++ .named "children" v :: after) = true)
    (hafter : ∀ a ∈ after, a.isChildren = false) :
    E.gathered d [] (before ++ .named "children" v :: after) = E.worth d v := by
  obtain ⟨hv, hbefore⟩ := foldsWhole_split h hafter
  rw [gathered, between, isEmpty_nil, if_pos rfl,
    foldedChildren_split hbefore hafter, together_of_isWhole hv, Option.getD_some]

/-- An array of one element gives the element, and not the array. -/
theorem gathered_singleton {before after : List Attribute} {e : Node} (he : e.isVoid = false)
    (hbefore : ∀ a ∈ before, a.isChildren = false) (hafter : ∀ a ∈ after, a.isChildren = false) :
    E.gathered d [] (before ++ .named "children" (.array [some e]) :: after) = E.worth d e := by
  have hexpressions : (named "children" (.array [some e])).childExpressions.filter
      (!·.isVoid) = [e] := by
    simp [childExpressions, he]
  have hnone : ∀ a ∈ before, a.isChildren = true → a.givesNoChild = true := fun a ha h => by
    rw [hbefore a ha] at h
    cases h
  rw [gathered, between, isEmpty_nil, if_pos rfl,
    foldedChildren_split hnone hafter, hexpressions]
  rfl

end Evaluation

/-- The children of an element that is made from an automatic call. They have
    the value that the props gave them if and only if what stands between the
    tags, put together, has the value that the props write last. In particular:
    * if the entries for `children` fold whole, if and only if no object that is
      spread after the last one gives them another value;
    * if two or more expressions stand between the tags, if and only if the
      array of all of them has that value;
    * if an array of one element is the only entry, if and only if the element
      has the value of the array, or of what an object gives that is spread
      after it;
    * if nothing stands between the tags, as with `void`, if and only if the
      other attributes write that value. -/
theorem children_kept_iff {V : Type} (E : Evaluation V) {d : Dialect}
    {callee tag props element : Node} {rest : List Node} {o : Bool} {attrs : List Attribute}
    (hruntime : d.runtime? callee = some .automatic) (hattrs : props.attributes = .ok attrs)
    (helement : d.element? (.call callee (tag :: props :: rest) o) = .ok (some element)) :
    (E.childrenOfElement d element = E.childrenOfProps d props ↔
        E.gathered d (rest.drop 1) attrs = E.written d attrs) ∧
      (rest.drop 1 = [] → foldsWhole attrs = true →
        (E.childrenOfElement d element = E.childrenOfProps d props ↔
          ∀ before v after, attrs = before ++ named "children" v :: after →
            (∀ a ∈ after, a.isChildren = false) →
              ∀ w, lastWrite "children" ((E.props d).writesOfAttributes after) = some w →
                w = E.worth d v)) ∧
      (2 ≤ (between (rest.drop 1) attrs).length →
        (E.childrenOfElement d element = E.childrenOfProps d props ↔
          E.list ((between (rest.drop 1) attrs).map (E.worth d)) = E.written d attrs)) ∧
      (∀ before e after, rest.drop 1 = [] →
        attrs = before ++ named "children" (.array [some e]) :: after →
          (∀ a ∈ before ++ after, a.isChildren = false) → e.isVoid = false →
            (E.childrenOfElement d element = E.childrenOfProps d props ↔
              E.worth d e = (lastWrite "children" ((E.props d).writesOfAttributes after)).getD
                (E.worth d (.array [some e])))) ∧
      (between (rest.drop 1) attrs = [] →
        (E.childrenOfElement d element = E.childrenOfProps d props ↔
          E.written d (attrs.filter (!·.isChildren)) = E.written d attrs)) := by
  obtain ⟨f, attrs', children, folded, kept, hmakes, rfl⟩ := Dialect.element?_makes helement
  obtain ⟨runtime, hruntime', -, hprops, hchildren⟩ := Dialect.frame?_parts hmakes.frame
  cases hruntime.symm.trans hruntime'
  have hchildren : f.children = rest.drop 1 := hchildren
  obtain rfl : attrs = attrs' := by
    have h := hmakes.attributes
    rw [Frame.attributes, hprops] at h
    exact Except.ok.inj (hattrs.symm.trans h)
  have hwrites := (hattrs ▸ attributes_yields (E.props d) props).writes_eq
  have hwritten : E.childrenOfProps d props = E.written d attrs := by
    rw [Evaluation.childrenOfProps, ← hwrites]
    rfl
  rw [Evaluation.childrenOfElement_eq hmakes, hwritten, hchildren]
  refine ⟨Iff.rfl, fun hgiven hwhole => ?_, fun htwo => ?_, ?_, fun hnone => ?_⟩
  · rw [hgiven]
    -- with a last entry, its value is compared with what a later spread writes
    have hlast {before after : List Attribute} {v : Node}
        (hsplit : attrs = before ++ .named "children" v :: after)
        (hafter : ∀ a ∈ after, a.isChildren = false) :
        E.gathered d [] attrs = E.written d attrs ↔
          ∀ w, lastWrite "children" ((E.props d).writesOfAttributes after) = some w →
            w = E.worth d v := by
      rw [hsplit, Evaluation.gathered_of_foldsWhole (hsplit ▸ hwhole) hafter,
        Evaluation.written_split]
      cases lastWrite "children" ((E.props d).writesOfAttributes after) with
      | none => exact ⟨fun _ w hw => (by cases hw), fun _ => rfl⟩
      | some w => exact ⟨fun h w' hw' => Option.some.inj hw' ▸ h.symm, fun h => (h w rfl).symm⟩
    obtain hno | ⟨before, v, after, hsplit, hafter⟩ := exists_last_children attrs
    · refine ⟨fun _ before v after hsplit _ => ?_, fun _ => Evaluation.gathered_of_forall hno⟩
      have hv := hno (.named "children" v) (hsplit ▸ mem_append_right _ mem_cons_self)
      cases hv
    · exact ⟨fun h _ _ _ hsplit hafter => (hlast hsplit hafter).1 h,
        fun h => (hlast hsplit hafter).2 (h _ _ _ hsplit hafter)⟩
  · rw [Evaluation.gathered, Evaluation.together_of_two_le (by rwa [length_map]),
      Option.getD_some]
  · intro before e after hgiven hsplit hothers he
    obtain ⟨hbefore, hafter⟩ := forall_mem_append.1 hothers
    rw [hgiven, hsplit, Evaluation.gathered_singleton he hbefore hafter, Evaluation.written_split]
  · rw [Evaluation.gathered, hnone]
    rfl

/-- Values as texts: a name is its own value, and every object that is spread
    has the children `spread`. -/
def Evaluation.spelled : Evaluation Text where
  absent := []
  string t := t
  list := flatten
  choice _ consequent alternate := consequent ++ alternate
  logic _ left right := left ++ right
  other n := n.identifierName?.getD []
  entry _ := ("", [])
  spread _ := [("children", "spread")]

/-- An object with an entry `children`, between other entries. -/
def propsWith (before : List Node) (children : Node) (after : List Node) : Node :=
  .object (before ++ .entry (.identifier "children") children .init false false false :: after)

/-- `jsx("ul", props)` -/
def listCall (props : Node) : Node :=
  .call (.identifier "jsx") [.literal (.string "ul") none, props] false

/-- The children are kept in `jsx("ul", { ...props, children: [a, b] })`, where
    `props` has children, and lost in `jsx("ul", { children: a, children: b })`.
    -/
theorem children_kept_after_spread :
    let a := Node.identifier "a"
    let b := Node.identifier "b"
    let kept := propsWith [.spread (.identifier "props")] (.array [some a, some b]) []
    let lost := propsWith [] a [.entry (.identifier "children") b .init false false false]
    (∃ element, (⟨{}, none⟩ : Dialect).element? (listCall kept) = .ok (some element) ∧
      Evaluation.spelled.childrenOfElement ⟨{}, none⟩ element =
        Evaluation.spelled.childrenOfProps ⟨{}, none⟩ kept) ∧
    ∃ element, (⟨{}, none⟩ : Dialect).element? (listCall lost) = .ok (some element) ∧
      Evaluation.spelled.childrenOfElement ⟨{}, none⟩ element ≠
        Evaluation.spelled.childrenOfProps ⟨{}, none⟩ lost := by
  intro a b kept lost
  constructor
  · obtain ⟨element, helement, -⟩ := Dialect.exists_element (P := fun _ => True)
      (d := ⟨{}, none⟩) (n := listCall kept) (by decide +kernel)
    have hattrs : kept.attributes =
      .ok [.spread (.identifier "props"), .named "children" (.array [some a, some b])] := rfl
    refine ⟨element, helement,
      ((children_kept_iff _ (by decide +kernel) hattrs helement).2.1 rfl rfl).2 ?_⟩
    rintro (_ | ⟨_, _ | ⟨_, before⟩⟩) v after hsplit hafter w hw
    · cases hsplit
    · cases hsplit
      cases hw
    · cases before <;> cases hsplit
  · obtain ⟨element, helement, -⟩ := Dialect.exists_element (P := fun _ => True)
      (d := ⟨{}, none⟩) (n := listCall lost) (by decide +kernel)
    have hattrs : lost.attributes = .ok [.named "children" a, .named "children" b] := rfl
    refine ⟨element, helement, fun hkept => ?_⟩
    have hseveral := (children_kept_iff Evaluation.spelled (by decide +kernel) hattrs
      helement).2.2.1 (by decide)
    exact absurd (hseveral.1 hkept) (by decide)

/-- `jsx("ul", { children: "a", ...props })`, where `props` has children: they
    are lost. -/
theorem children_lost_before_spread :
    let props := propsWith [] (.literal (.string "a") none) [.spread (.identifier "props")]
    Evaluation.spelled.childrenOfProps ⟨{}, none⟩ props = "spread" ∧
      ∃ element, (⟨{}, none⟩ : Dialect).element?
        (.call (.identifier "jsx") [.literal (.string "ul") none, props] false) =
          .ok (some element) ∧
        Evaluation.spelled.childrenOfElement ⟨{}, none⟩ element = "a" :=
  ⟨by decide +kernel, Dialect.exists_element (by decide +kernel)⟩

end Resugar
