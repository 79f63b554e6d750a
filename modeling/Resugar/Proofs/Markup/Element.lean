import Resugar.Markup.Rebuild
import Resugar.Proofs.Tree.Throughout

/-!
# The nodes of elements

Markup calls become elements (`Dialect.rebuild`). The nodes of an element are
among those of the call, and its name, like the names of the elements in it, is
spelled by a walked node of the call: as the text of a tag (`Node.tagName?`) and
not as an identifier. So an element has all properties of the call that hold
below a node and above nodes (`Inherited`).
-/

namespace Resugar

open Node List

/-- A property that elements with some tags inherit from the nodes that they are
    made of: it holds below a node that has it, and of what is made of nodes
    that have it. -/
structure Inherited (Q : Node → Prop) (tag : Text → Prop) : Prop where
  child {n c : Node} : Q n → c ∈ n.children → Q c
  literal (value : Value) (spelling : Option Text) : Q (.literal value spelling)
  text {value : Text} : value.isMarkupText = true → Q (.markupText value)
  container {expression : Node} : Q expression → Q (.container expression)
  object {entry : Node} : Q entry → Q (.object [entry])
  named {name : Text} {value : Node} : name ≠ Text.ofString "children" → Q value →
    Q (.namedAttribute name (some value))
  spread {argument : Node} : Q argument → Q (.spreadAttribute argument)
  element {name : Text} {attributes children : List Node} : tag name →
    (∀ a ∈ attributes, a.isTagAttribute = true ∧ Q a) →
    (∀ c ∈ children, c.isTagChild = true ∧ Q c) →
    Q (.element name attributes children children.isEmpty)
  parenthesized {expression : Node} : Q expression → Q (.parenthesized expression)
  conditional {test consequent alternate : Node} : Q test → Q consequent → Q alternate →
    Q (.conditional test consequent alternate)
  logical (operator : Text) {left right : Node} : Q left → Q right →
    Q (.logical operator left right)

theorem CodePoint.escapeMarkupPoint_of_not_isUnsafe {c : CodePoint} (h : c.isUnsafe = false) :
    Text.escapeMarkupPoint c = [c] := by
  simp only [isUnsafe, Bool.or_eq_false_iff, beq_eq_false_iff_ne, ne_eq] at h
  obtain ⟨⟨⟨⟨⟨⟨hopen, hclose⟩, hless⟩, hgreater⟩, hand⟩, -⟩, -⟩ := h
  rw [Text.escapeMarkupPoint, if_neg hand, if_neg hless, if_neg hgreater,
    if_neg hopen, if_neg hclose]

/-- A text that can stand between tags is written as it is. -/
theorem Text.escapeMarkup_of_isMarkupText {t : Text} (h : t.isMarkupText = true) :
    t ≠ [] ∧ t.escapeMarkup = t := by
  simp only [isMarkupText, Bool.and_eq_true, Bool.not_eq_true', isEmpty_eq_false_iff] at h
  obtain ⟨⟨⟨hne, hsafe⟩, -⟩, -⟩ := h
  refine ⟨hne, ?_⟩
  have hpoint : ∀ c ∈ t, escapeMarkupPoint c = [c] := fun c hc =>
    c.escapeMarkupPoint_of_not_isUnsafe (by simpa using any_eq_false.1 hsafe c hc)
  calc t.escapeMarkup = t.flatMap escapeMarkupPoint := rfl
    _ = t.flatMap fun c => [c] := flatMap_congr hpoint
    _ = t := flatMap_singleton' t

variable {Q : Node → Prop} {tag : Text → Prop} {n c : Node}

namespace Node

theorem mem_children_call {callee : Node} {arguments : List Node} {o : Bool} (h : c ∈ arguments) :
    c ∈ (call callee arguments o).children := by
  simpa [children, Field.walkedNodes, Field.single, Field.list, Slot.nodes] using .inr h

theorem mem_children_object {entries : List Node} (h : c ∈ entries) :
    c ∈ (object entries).children := by
  simpa [children, Field.walkedNodes, Field.list, Slot.nodes] using h

theorem mem_children_array {elements : List (Option Node)} (h : c ∈ elements.filterMap id) :
    c ∈ (array elements).children := by
  simpa [children, Field.walkedNodes, Field.list, Slot.nodes] using h

/-- Only string literals have a string value. -/
theorem stringValue?_eq_some {x : Text} :
    n.stringValue? = some x ↔ ∃ spelling, n = literal (.string x) spelling := by
  unfold stringValue?
  split
  · rename_i spelling
    refine ⟨fun h => ⟨spelling, by rw [Option.some.inj h]⟩, ?_⟩
    rintro ⟨_, h⟩
    cases h
    rfl
  · rename_i hn
    refine ⟨fun h => absurd h (by simp), ?_⟩
    rintro ⟨spelling, h⟩
    exact absurd h (hn x spelling)

/-- A value stays, or is a literal. -/
theorem attributeExpression_eq (n : Node) :
    n.attributeExpression = n ∨ n.attributeExpression.isLiteral = true := by
  unfold attributeExpression
  split
  · exact .inr rfl
  · exact .inl rfl

variable {attrs : List Attribute} {a : Attribute}

/-- An attribute of a part of a merge comes from an entry of an object, or from
    a node that is spread. -/
theorem mem_partAttributes_cases (h : n.partAttributes = .ok attrs) (ha : a ∈ attrs) :
    ∃ m ∈ n.walk, m.entryAttribute = .ok a ∨ a = .spread m := by
  have hungroup := n.ungroup_mem_walk
  unfold partAttributes barePartAttributes at h
  split at h
  · cases h
    cases ha
  · rename_i entries hentries
    rw [hentries] at hungroup
    obtain ⟨e, he, hea⟩ := mem_of_mapM h ha
    exact ⟨e, walk_subset_of_mem_walk hungroup
      (mem_walk_of_mem_children (mem_children_object he)), .inl hea⟩
  · cases h
    split at ha
    · cases ha
    · exact ⟨_, hungroup, .inr (mem_singleton.1 ha)⟩

/-- An attribute that an argument of a merge gives comes from an entry in it, or
    spreads a part of it. -/
theorem mem_argumentAttributes_cases (h : n.argumentAttributes = .ok attrs) (ha : a ∈ attrs) :
    ∃ m ∈ n.walk, m.entryAttribute = .ok a ∨ a = .spread m := by
  unfold argumentAttributes at h
  split at h
  · cases h
    exact ⟨_, mem_walk_self _, .inr (mem_singleton.1 ha)⟩
  · exact mem_partAttributes_cases h ha

/-- An attribute comes from a node of the props: an entry of an object gives it,
    or the node is spread. -/
theorem mem_attributes_cases (h : n.attributes = .ok attrs) (ha : a ∈ attrs) :
    ∃ m ∈ n.walk, m.entryAttribute = .ok a ∨ a = .spread m := by
  have hungroup := n.ungroup_mem_walk
  have hspread (ha : a ∈ [Attribute.spread n.ungroup]) : ∃ m ∈ n.walk,
      m.entryAttribute = .ok a ∨ a = .spread m :=
    ⟨_, hungroup, .inr (mem_singleton.1 ha)⟩
  unfold attributes bareAttributes at h
  split at h <;> rename_i hprops <;> try rw [hprops] at hungroup hspread
  · cases h
    cases ha
  · obtain ⟨e, he, hea⟩ := mem_of_mapM h ha
    exact ⟨e, walk_subset_of_mem_walk hungroup
      (mem_walk_of_mem_children (mem_children_object he)), .inl hea⟩
  · split at h
    · obtain ⟨lists, hlists, h⟩ := bind_eq_ok.1 h
      cases h
      obtain ⟨l, hl, ha⟩ := mem_flatten.1 ha
      obtain ⟨argument, hargument, hl⟩ := mem_of_mapM hlists hl
      obtain ⟨m, hm, hma⟩ := mem_argumentAttributes_cases hl ha
      have hcall :=
        walk_subset_of_mem_walk hungroup (mem_walk_of_mem_children (mem_children_call hargument))
      exact ⟨m, walk_subset_of_mem_walk hcall hm, hma⟩
    · cases h
      exact hspread ha
  · cases h
    split at ha
    · cases ha
    · exact hspread ha
  · cases h
    exact hspread ha
  · cases h
    exact hspread ha
  · cases h
    exact hspread ha
  · cases h

/-- All texts that the nodes of a tree name as tags are among some. -/
def Spells (P : Text → Prop) (n : Node) : Prop :=
  ∀ t ∈ n.walk, ∀ text, t.tagName? = .ok (some text) → P text

/-- A tree has a property, and the texts of its tags are among some. -/
def Makes (Q : Node → Prop) (tag : Text → Prop) (n : Node) : Prop :=
  Q n ∧ n.Spells tag

end Node

namespace Attribute

/-- What an attribute holds has a property. -/
def Holds (Q : Node → Prop) : Attribute → Prop
  | named _ value => Q value
  | spread argument => Q argument

/-- What an attribute holds has a property, and the texts that its nodes name as
    tags are among some. -/
def Makes (Q : Node → Prop) (tag : Text → Prop) : Attribute → Prop
  | named _ value => value.Makes Q tag
  | spread argument => Q argument

end Attribute

/-- The key is one of the arguments. -/
theorem Runtime.mem_of_mem_arrange_fst {r : Runtime} {rest : List Node}
    (h : c ∈ (r.arrange rest).1) : c ∈ rest := by
  rcases r
  · cases h
  · exact mem_of_mem_head? h
  · exact mem_of_mem_drop (mem_of_mem_head? h)
  · exact mem_of_mem_head? h

/-- A markup call that is taken apart begins with a tag for the name. -/
theorem Dialect.frame?_eq_some {d : Dialect} {callee : Node} {arguments : List Node} {f : Frame}
    (h : d.frame? callee arguments = .ok (some f)) :
    (∃ tag ∈ arguments, tag.tagName? = .ok (some f.name)) ∧ ∀ k ∈ f.key, k ∈ arguments := by
  unfold Dialect.frame? at h
  split at h
  · rename_i runtime tag rest _
    split at h
    · cases h
    · split at h
      · cases h
      · cases h
      · rename_i name hname
        cases h
        refine ⟨⟨tag, mem_cons_self, hname⟩, fun k hk => ?_⟩
        exact mem_cons_of_mem _ (mem_of_mem_tail (Runtime.mem_of_mem_arrange_fst hk))
  · cases h

/-- The element for a markup call is what rebuilding gives. -/
theorem Dialect.element?_eq_some {d : Dialect} {element : Node}
    (h : d.element? n = .ok (some element)) :
    d.rebuild n = .ok element ∧ element.isElement = true := by
  obtain ⟨n', hn', h⟩ := bind_eq_ok.1 h
  split at h
  · rename_i helement
    cases h
    exact ⟨hn', (Bool.and_eq_true_iff.1 helement).2⟩
  · cases h

section

variable (hQ : Inherited Q tag)
include hQ

namespace Node

theorem Makes.of_mem_children (h : n.Makes Q tag) (hc : c ∈ n.children) : c.Makes Q tag :=
  ⟨hQ.child h.1 hc, fun t ht => h.2 t (walk_subset_of_mem_walk (mem_walk_of_mem_children hc) ht)⟩

theorem Makes.of_mem_walk (h : n.Makes Q tag) (hc : c ∈ n.walk) : c.Makes Q tag := by
  induction n using induct with
  | h n ih =>
    rcases mem_walk_iff.1 hc with rfl | ⟨m, hm, hc⟩
    · exact h
    · exact ih m (mem_parts_of_mem_children hm) (h.of_mem_children hQ hm) hc

/-! ## Attributes -/

theorem attributeValue_inherits (h : Q n) : Q n.attributeValue := by
  unfold attributeValue
  split
  · split
    · exact hQ.literal ..
    · exact hQ.container h
  · exact hQ.container h

theorem asChildren_inherits (h : Q n) : ∀ c ∈ n.asChildren, c.isTagChild = true ∧ Q c := by
  intro c hc
  unfold asChildren at hc
  split at hc
  · exact mem_singleton.1 hc ▸ ⟨rfl, h⟩
  · exact mem_singleton.1 hc ▸ ⟨rfl, h⟩
  · split at hc
    · cases hc
    · split at hc
      · split at hc
        · rename_i htext
          exact mem_singleton.1 hc ▸ ⟨rfl, hQ.text htext⟩
        · exact mem_singleton.1 hc ▸ ⟨rfl, hQ.container (hQ.literal ..)⟩
      · exact mem_singleton.1 hc ▸ ⟨rfl, hQ.container h⟩

end Node

/-- An attribute in a tag inherits from what it holds. -/
theorem Attribute.Holds.toNode {a : Attribute} (h : a.Holds Q) (ha : a.isChildren = false) :
    a.toNode.isTagAttribute = true ∧ Q a.toNode := by
  cases a with
  | named name value =>
    have hname : name ≠ Text.ofString "children" := beq_eq_false_iff_ne.1 ha
    exact ⟨bne_iff_ne.2 hname, hQ.named hname (attributeValue_inherits hQ h)⟩
  | spread argument => exact ⟨rfl, hQ.spread h⟩

namespace Node

/-- An attribute holds parts of its entry. -/
theorem entryAttribute_makes {a : Attribute} (h : n.entryAttribute = .ok a) (hn : n.Makes Q tag) :
    a.Makes Q tag := by
  unfold entryAttribute at h
  split at h
  · rename_i argument
    cases h
    exact hQ.child hn.1 (mem_singleton_self argument)
  · split at h
    · cases h
      refine hn.of_mem_children hQ ?_
      simp [children, Field.walkedNodes, Field.single, Slot.nodes]
    · cases h
      exact hQ.object hn.1
  · cases h

/-- The attributes that props give hold parts of the props. -/
theorem attributes_makes {attrs : List Attribute}
    (h : n.attributes = .ok attrs) (hn : n.Makes Q tag) : ∀ a ∈ attrs, a.Makes Q tag := by
  intro a ha
  obtain ⟨m, hm, hma | rfl⟩ := mem_attributes_cases h ha
  · exact entryAttribute_makes hQ hma (hn.of_mem_walk hQ hm)
  · exact (hn.of_mem_walk hQ hm).1

end Node

/-- The expressions for children are parts of the attributes, or literals. -/
theorem Attribute.foldedChildren_makes {attrs : List Attribute} (h : ∀ a ∈ attrs, a.Makes Q tag)
    (hc : c ∈ Attribute.foldedChildren attrs) : c.Makes Q tag ∨ c.isLiteral = true := by
  obtain ⟨a, ha, hc⟩ := mem_flatMap.1 hc
  have ha := h a (mem_filter.1 ha).1
  unfold Attribute.childExpressions at hc
  split at hc
  · exact .inl (Node.Makes.of_mem_children hQ ha (mem_children_array hc))
  · rename_i value _
    rw [mem_singleton.1 hc]
    rcases attributeExpression_eq _ with hv | hv
    · rw [hv]
      exact .inl ha
    · exact .inr hv
  · cases hc

/-! ## Elements -/

/-- The attributes of a markup call hold parts of its props. -/
theorem Frame.attributes_makes {f : Frame} {attrs : List Attribute} (h : f.attributes = .ok attrs)
    (hprops : ∀ p ∈ f.props, p.Makes Q tag) : ∀ a ∈ attrs, a.Makes Q tag := by
  unfold Frame.attributes at h
  split at h
  · cases h
    nofun
  · rename_i props hp
    exact Node.attributes_makes hQ h (hprops props hp)

namespace Dialect

variable {d : Dialect}

/-- The element for a markup call, whose children and attributes have been
    rebuilt already. -/
theorem toElement_inherits {callee : Node} {arguments : List Node} {f : Frame}
    (h : d.frame? callee arguments = .ok (some f)) (hargs : ∀ a ∈ arguments, a.Makes Q tag)
    {children folded : List Node} (hchildren : ∀ c ∈ children, Q c) (hfolded : ∀ c ∈ folded, Q c)
    {attrs : List Attribute} (hattrs : ∀ a ∈ attrs, a.isChildren = false ∧ a.Holds Q) :
    Q (f.toElement children folded attrs) := by
  obtain ⟨⟨tag, htag, hname⟩, hkey⟩ := frame?_eq_some h
  refine hQ.element ?_ ?_ ?_
  · exact (hargs tag htag).2 tag tag.mem_walk_self _ hname
  · intro a ha
    rcases mem_append.1 ha with ha | ha
    · unfold Frame.keyAttribute at ha
      split at ha
      · cases ha
      · rename_i key hk
        split at ha
        · cases ha
        · rw [mem_singleton.1 ha]
          exact Attribute.Holds.toNode hQ (a := .named _ key) (hargs key (hkey key hk)).1 rfl
    · obtain ⟨attr, hattr, rfl⟩ := mem_map.1 ha
      exact (hattrs attr hattr).2.toNode hQ (hattrs attr hattr).1
  · intro c hc
    obtain ⟨m, hm, hc⟩ := mem_flatMap.1 hc
    refine asChildren_inherits hQ ?_ c hc
    split at hm
    · exact hfolded m hm
    · exact hchildren m hm

/-- A rebuilt call inherits a property if all smaller rebuilt expressions do. -/
theorem rebuild_call_inherits {callee : Node} {arguments : List Node} {o : Bool} {n' : Node}
    (h : d.rebuild (.call callee arguments o) = .ok n')
    (hn : (call callee arguments o).Makes Q tag)
    (ih : ∀ m m', m.size < (call callee arguments o).size → d.rebuild m = .ok m' →
      m.Makes Q tag ∨ m.isLiteral = true → Q m') : Q n' := by
  have hargs : ∀ a ∈ arguments, a.Makes Q tag :=
    fun a ha => hn.of_mem_children hQ (mem_children_call ha)
  rw [rebuild] at h
  split at h
  · cases h
  · cases h
    exact hn.1
  · rename_i f hf
    have hmem := d.mem_of_frame? hf
    split at h
    · cases h
    · rename_i attrs hattrs
      have hmakes := Frame.attributes_makes hQ hattrs fun p hp => hargs p (hmem.2 p hp)
      obtain ⟨children, hchildren, h⟩ := bind_eq_ok.1 h
      obtain ⟨folded, hfolded, h⟩ := bind_eq_ok.1 h
      obtain ⟨kept, hkept, h⟩ := bind_eq_ok.1 h
      cases h
      refine toElement_inherits hQ hf hargs ?_ ?_ ?_
      · -- the children that the call has as arguments
        intro c' hc'
        obtain ⟨⟨c, hc⟩, -, hcc'⟩ := mem_of_mapM hchildren hc'
        have hc := hmem.1 c hc
        exact ih c c' (size_lt_argument hc) hcc' (.inl (hargs c hc))
      · -- the children in the props, which can be deep down in an argument
        intro c' hc'
        obtain ⟨⟨c, hc⟩, -, hcc'⟩ := mem_of_mapM hfolded hc'
        obtain ⟨name, value, hv, hle⟩ := Attribute.size_le_of_mem_foldedChildren hc
        have hlt : value.size < (call callee arguments o).size :=
          Frame.size_lt_of_mem_attributes hmem.2 hattrs hv
        exact ih c c' (Nat.lt_of_le_of_lt hle hlt) hcc'
          (Attribute.foldedChildren_makes hQ hmakes hc)
      · -- the other attributes; what is spread is not rebuilt
        intro a' ha'
        obtain ⟨⟨a, ha⟩, -, haa'⟩ := mem_of_mapM hkept ha'
        obtain ⟨ha, hkeeps⟩ := mem_filter.1 ha
        split at haa'
        · rename_i name value heq
          subst heq
          obtain ⟨value', hvalue', haa'⟩ := bind_eq_ok.1 haa'
          cases haa'
          refine ⟨Bool.not_eq_true' _ ▸ hkeeps, ?_⟩
          exact ih value value' (Frame.size_lt_of_mem_attributes hmem.2 hattrs ha)
            hvalue' (.inl (hmakes _ ha))
        · rename_i argument heq
          subst heq
          cases haa'
          exact ⟨rfl, hmakes _ ha⟩

/-- A rebuilt expression inherits what holds of the expression, if its tags are
    among some. A literal can stand for a string of the props. -/
theorem rebuild_inherits {n' : Node} (h : d.rebuild n = .ok n')
    (hn : n.Makes Q tag ∨ n.isLiteral = true) : Q n' := by
  -- on the size: the children in the props of a call are no children of the call
  induction hsize : n.size using Nat.strongRecOn generalizing n n' with
  | ind k ih =>
    subst hsize
    rw [rebuild.eq_def] at h
    split at h
    case h_1 e =>
      obtain ⟨e', he', h⟩ := bind_eq_ok.1 h
      cases h
      have he : e.Makes Q tag :=
        (hn.resolve_right Bool.false_ne_true).of_mem_children hQ (mem_singleton_self e)
      have he' := ih _ (size_lt_parenthesized e) he' (.inl he) rfl
      split
      · exact he'
      · exact hQ.parenthesized he'
    case h_2 test consequent alternate =>
      obtain ⟨consequent', hconsequent', h⟩ := bind_eq_ok.1 h
      obtain ⟨alternate', halternate', h⟩ := bind_eq_ok.1 h
      cases h
      have hpart {m : Node} (hm : m ∈ [test, consequent, alternate]) : m.Makes Q tag :=
        (hn.resolve_right Bool.false_ne_true).of_mem_children hQ hm
      refine hQ.conditional (hpart (by simp)).1 ?_ ?_
      · exact ih _ (size_lt_conditional_consequent ..) hconsequent'
          (.inl (hpart (by simp))) rfl
      · exact ih _ (size_lt_conditional_alternate ..) halternate' (.inl (hpart (by simp))) rfl
    case h_3 operator left right =>
      obtain ⟨left', hleft', h⟩ := bind_eq_ok.1 h
      obtain ⟨right', hright', h⟩ := bind_eq_ok.1 h
      cases h
      have hpart {m : Node} (hm : m ∈ [left, right]) : m.Makes Q tag :=
        (hn.resolve_right Bool.false_ne_true).of_mem_children hQ hm
      refine hQ.logical operator ?_ ?_
      · exact ih _ (size_lt_logical_left ..) hleft' (.inl (hpart (by simp))) rfl
      · exact ih _ (size_lt_logical_right ..) hright' (.inl (hpart (by simp))) rfl
    case h_4 callee arguments o =>
      refine rebuild_call_inherits hQ (o := o) ?_
        (hn.resolve_right Bool.false_ne_true) fun m m' hlt hm' hm =>
        ih _ hlt hm' hm rfl
      rwa [rebuild]
    case h_5 =>
      cases h
      rcases hn with hn | hn
      · exact hn.1
      · unfold isLiteral at hn
        split at hn
        · exact hQ.literal ..
        · cases hn

/-- The element in place of a markup call inherits what holds of the call. -/
theorem element?_inherits {element : Node}
    (h : d.element? n = .ok (some element)) (hn : n.Makes Q tag) : Q element :=
  rebuild_inherits hQ (element?_eq_some h).1 (.inl hn)

end Dialect

end

/-! ## Rules -/

namespace Dialect

variable {d : Dialect}

theorem inherited_fits (R : Rule) : Inherited (·.Fits R .any) (R.tag · = true) where
  child h hc := h.of_mem_walk Role.noConfusion (mem_walk_of_mem_children hc)
  literal _ _ := fits_literal
  text _ := fits_markupText
  container h := fits_container.2 h
  object h := (Rule.compositional _).object.2 (forall_mem_singleton.2 h)
  named _ h := fits_namedAttribute.2 fun _ hm => Option.some.inj hm ▸ h
  spread h := fits_spreadAttribute.2 h
  element htag hattributes hchildren :=
    fits_element.2 ⟨htag, fun a ha => (hattributes a ha).2, fun c hc => (hchildren c hc).2⟩
  parenthesized h := (Rule.compositional _).parenthesized.2 h
  conditional htest hconsequent halternate :=
    fits_conditional.2 ⟨htest, hconsequent, halternate⟩
  logical _ _ _ hleft hright := (Rule.compositional _).logical.2 ⟨hleft, hright⟩

/-- The element in place of a markup call fits every rule that the call fits and
    that has its tags. -/
theorem element?_fits {R : Rule} {element : Node} (h : d.element? n = .ok (some element))
    (hn : n.Fits R .any) (htags : n.Spells (R.tag · = true)) : element.Fits R .any :=
  element?_inherits (inherited_fits R) h ⟨hn, htags⟩

/-- The names of an element are those of the call. -/
theorem element?_speaks {V : Vocabulary} {element : Node} (h : d.element? n = .ok (some element))
    (hn : n.Speaks V true) (htags : n.Spells V.tag) : element.Speaks V true := by
  refine speaks_iff_fits.2
    (element?_fits h (speaks_iff_fits.1 hn) fun t ht text htext => ?_)
  exact tag_ruleOf.2 (htags t ht text htext)

end Dialect

/-! ## What holds throughout an element -/

/-- A property that all markup has when it is made, and that lasts. -/
structure Lasting (p : Node → Prop) : Prop extends Node.Stable p where
  text {value : Text} : value.isMarkupText = true → p (.markupText value)
  container (expression : Node) : p (.container expression)
  named {name : Text} (value : Option Node) : name ≠ Text.ofString "children" →
    p (.namedAttribute name value)
  spread (argument : Node) : p (.spreadAttribute argument)
  element (name : Text) {attributes children : List Node} :
    (∀ a ∈ attributes, a.isTagAttribute = true) → (∀ c ∈ children, c.isTagChild = true) →
    p (.element name attributes children children.isEmpty)

namespace Dialect

variable {d : Dialect} {p : Node → Prop}

theorem inherited_holds (hp : Lasting p) : Inherited (·.Holds p) fun _ => True where
  child h hc := h.of_mem_parts (mem_parts_of_mem_children hc)
  literal _ _ := holds_literal
  text h := holds_iff.2 ⟨fun _ => hp.text h, nofun⟩
  container h := holds_iff.2 ⟨fun _ => hp.container _, forall_mem_singleton.2 h⟩
  object h := (holds_compositional p).object.2 (forall_mem_singleton.2 h)
  named hname h := holds_iff.2 ⟨fun _ => hp.named _ hname, forall_mem_singleton.2 h⟩
  spread h := holds_iff.2 ⟨fun _ => hp.spread _, forall_mem_singleton.2 h⟩
  element {name attributes children} _ hattributes hchildren := by
    refine holds_iff.2 ⟨fun _ => ?_, fun c hc => ?_⟩
    · exact hp.element name (fun a ha => (hattributes a ha).1) fun c hc => (hchildren c hc).1
    · have hc : c ∈ attributes ∨ c ∈ children := by
        simpa [parts, Field.list, Slot.nodes] using hc
      exact hc.elim (fun hc => (hattributes c hc).2) fun hc => (hchildren c hc).2
  parenthesized h := (holds_compositional p).parenthesized.2 h
  conditional htest hconsequent halternate := by
    refine (holds_iff_parts rfl).2 ?_
    exact forall_mem_cons.2
      ⟨htest, forall_mem_cons.2 ⟨hconsequent, forall_mem_singleton.2 halternate⟩⟩
  logical _ _ _ hleft hright := (holds_compositional p).logical.2 ⟨hleft, hright⟩

/-- What holds throughout a markup call holds throughout its element. -/
theorem element?_holds (hp : Lasting p) {element : Node}
    (h : d.element? n = .ok (some element)) (hn : n.Holds p) : element.Holds p :=
  element?_inherits (inherited_holds hp) h ⟨hn, fun _ _ _ _ => trivial⟩

end Dialect

end Resugar
