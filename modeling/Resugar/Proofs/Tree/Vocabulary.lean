import Mathlib.Data.List.Basic
import Resugar.Proofs.Results
import Resugar.Tree.Part

/-!
# The vocabulary of a tree

The names that a tree holds: those of its walked identifiers (`Node.names`), and
those of its elements, walked or not (`Node.tags`). A `Vocabulary` says which
names are allowed, and `Node.Speaks` that a tree keeps to it. What a rewrite of
trees does to names is proved once, as what it does to `Speaks`.
-/

namespace Resugar

open List

namespace Slot

variable {α : Type}

theorem child_eq (s : Slot α) (old : α) :
    s.child old ∈ s.nodes ∨ s.child old = old ∧ s.nodes = [] := by
  rw [child, child?]
  rcases hs : s.nodes with _ | ⟨a, as⟩
  · exact .inr ⟨rfl, rfl⟩
  · exact .inl (mem_cons_self ..)

theorem mem_nodes_of_mem_child? {s : Slot α} {c : α} (h : c ∈ s.child?) : c ∈ s.nodes :=
  mem_of_mem_head? h

theorem filterMap_items (s : Slot α) : s.items.filterMap id = s.nodes := by
  cases s with
  | single child => cases child <;> rfl
  | list items => rfl

end Slot

namespace Node

/-! ## Nodes below a node -/

/-- The nodes right below a node, walked or not. -/
def parts (n : Node) : List Node :=
  n.fields.flatMap (·.slot.nodes)

/-- The number of nodes of a tree, walked or not. -/
def weight : Node → Nat :=
  fold fun _ fields => 1 + total ((fields.flatMap (·.slot.nodes)).map (·.2))

end Node

theorem Slot.nodes_map {α β : Type} (f : α → β) (s : Slot α) : (s.map f).nodes = s.nodes.map f := by
  cases s with
  | single child => cases child <;> rfl
  | list items =>
    induction items with
    | nil => rfl
    | cons o items ih => cases o <;> simp_all [Slot.map, Slot.nodes]

/-- Functions that agree on what a field holds give the same contents. -/
theorem Slot.map_congr {α β : Type} {f g : α → β} {slot : Slot α}
    (h : ∀ a ∈ slot.nodes, f a = g a) : slot.map f = slot.map g := by
  rcases slot with (_ | a) | items
  · rfl
  · exact congrArg (fun b => Slot.single (some b)) (h a (mem_singleton_self a))
  · refine congrArg Slot.list (map_congr_left fun item hitem => ?_)
    rcases item with _ | a
    · rfl
    · exact congrArg some (h a (mem_filterMap.2 ⟨some a, hitem, rfl⟩))

namespace Node

theorem flatMap_nodes_map {β : Type} (f : Node → β) (fields : List (Field Node)) :
    (fields.map (Field.map f)).flatMap (·.slot.nodes) = (fields.flatMap (·.slot.nodes)).map f := by
  induction fields with
  | nil => rfl
  | cons field fields ih => simp [ih, Field.map, Slot.nodes_map]

theorem weight_eq (n : Node) : n.weight = 1 + total (n.parts.map weight) := by
  rw [weight, fold_eq, flatMap_nodes_map, map_map]
  rfl

/-- What passes from the nodes below a node to it holds of all nodes. -/
theorem induct {P : Node → Prop} (h : ∀ n, (∀ c ∈ n.parts, P c) → P n) (n : Node) : P n := by
  induction hw : n.weight using Nat.strongRecOn generalizing n with
  | ind w ih =>
    refine h n fun c hc => ih c.weight ?_ c rfl
    have := le_total_of_mem (mem_map_of_mem (f := weight) hc)
    rw [← hw, weight_eq n]
    omega

variable {n c : Node} {f : Field Node}

theorem mem_parts (hf : f ∈ n.fields) (hc : c ∈ f.slot.nodes) : c ∈ n.parts :=
  mem_flatMap.2 ⟨f, hf, hc⟩

/-- What a walk finds right below a node is what the walked fields hold. -/
theorem mem_children_iff : c ∈ n.children ↔ ∃ f ∈ n.fields, f.walked = true ∧ c ∈ f.slot.nodes := by
  simp only [children, mem_flatMap, Field.walkedNodes]
  refine exists_congr fun f => and_congr_right fun _ => ?_
  split <;> simp_all

theorem mem_parts_of_mem_children (h : c ∈ n.children) : c ∈ n.parts := by
  obtain ⟨f, hf, -, hc⟩ := mem_children_iff.1 h
  exact mem_parts hf hc

/-- A node with other contents holds what it is given; or in a field that is
    given none, the one node that it held. -/
theorem fields_setSlots {s : Nat → Slot Node} {i : Nat} (h : (n.setSlots s).fields[i]? = some f) :
    ∃ g, n.fields[i]? = some g ∧ f.walked = g.walked ∧
      ∀ c ∈ f.slot.nodes, c ∈ (s i).nodes ∨ g.slot = .single (some c) ∧ (s i).nodes = [] := by
  have hsingle {s : Slot Node} {old c : Node} (hc : c ∈ (Slot.single (some (s.child old))).nodes) :
      c ∈ s.nodes ∨ Slot.single (some old) = .single (some c) ∧ s.nodes = [] := by
    obtain rfl := mem_singleton.1 hc
    exact (s.child_eq old).imp_right fun ⟨h, hs⟩ => ⟨by rw [h], hs⟩
  have hoptional {s : Slot Node} {c : Node} (hc : c ∈ (Slot.single s.child?).nodes) : c ∈ s.nodes :=
    Slot.mem_nodes_of_mem_child? (Option.mem_toList.1 hc)
  have hlist {s : Slot Node} {c : Node}
      (hc : c ∈ (Slot.list (s.nodes.map some)).nodes) : c ∈ s.nodes := by
    simpa [Slot.nodes] using hc
  have hholes {s : Slot Node} {c : Node} (hc : c ∈ (Slot.list s.items).nodes) : c ∈ s.nodes :=
    s.filterMap_items ▸ hc
  -- no node has more than four fields, and each of them is of one of the four
  -- forms above
  rcases i with _ | _ | _ | _ | i <;> cases n <;> cases h <;> first
    | exact ⟨_, rfl, rfl, fun c hc => hsingle hc⟩
    | exact ⟨_, rfl, rfl, fun c hc => .inl (hoptional hc)⟩
    | exact ⟨_, rfl, rfl, fun c hc => .inl (hlist hc)⟩
    | exact ⟨_, rfl, rfl, fun c hc => .inl (hholes hc)⟩

/-! ## Names -/

theorem names_eq (n : Node) : n.names = n.identifierName?.toList ++ n.children.flatMap names := by
  rw [names, walk_eq, filterMap_cons]
  cases n.identifierName? <;> simp only [filterMap_flatMap] <;> rfl

theorem mem_children (hf : f ∈ n.fields) (hw : f.walked = true) (hc : c ∈ f.slot.nodes) :
    c ∈ n.children :=
  mem_children_iff.2 ⟨f, hf, hw, hc⟩

theorem mem_walk_iff : c ∈ n.walk ↔ c = n ∨ ∃ m ∈ n.children, c ∈ m.walk := by
  rw [walk_eq, mem_cons, mem_flatMap]

theorem mem_walk_self (n : Node) : n ∈ n.walk :=
  mem_walk_iff.2 (.inl rfl)

theorem mem_walk_of_mem_children (h : c ∈ n.children) : c ∈ n.walk :=
  mem_walk_iff.2 (.inr ⟨c, h, c.mem_walk_self⟩)

theorem walk_subset_of_mem_walk (h : c ∈ n.walk) : c.walk ⊆ n.walk := by
  induction n using induct with
  | h n ih =>
    rcases mem_walk_iff.1 h with rfl | ⟨m, hm, hc⟩
    · exact List.Subset.refl _
    · exact fun x hx => mem_walk_iff.2 (.inr ⟨m, hm, ih m (mem_parts_of_mem_children hm) hc hx⟩)

/-- Only programs, blocks and bodies of classes have statements. -/
theorem statements_cases {body : List Node} (h : n.statements = .ok body) :
    n = program body ∨ n = block body ∨ n = classBody body := by
  unfold statements at h
  split at h <;> cases h
  · exact .inl rfl
  · exact .inr (.inl rfl)
  · exact .inr (.inr rfl)

theorem ungroup_mem_walk (n : Node) : n.ungroup ∈ n.walk := by
  fun_induction ungroup n with
  | case1 e ih => exact mem_walk_iff.2 (.inr ⟨e, mem_singleton_self e, ih⟩)
  | case2 n => exact n.mem_walk_self

theorem names_identifier (x : Text) : (identifier x).names = [x] :=
  rfl

theorem names_subset_of_mem_children (h : c ∈ n.children) : c.names ⊆ n.names := by
  intro x hx
  rw [names_eq n]
  exact mem_append_right _ (mem_flatMap.2 ⟨c, h, hx⟩)

/-- Only members have a receiver. -/
theorem receiver?_eq_some {receiver : Node} :
    n.receiver? = some receiver ↔
      ∃ property computed o, n = member receiver property computed o := by
  refine ⟨fun h => ?_, ?_⟩
  · unfold receiver? at h
    split at h <;> cases h
    exact ⟨_, _, _, rfl⟩
  · rintro ⟨property, computed, o, rfl⟩
    rfl

theorem identifierName?_eq_some {x : Text} : n.identifierName? = some x ↔ n = identifier x := by
  unfold identifierName?
  split <;> simp_all

theorem isNamed_iff {x : Text} : n.isNamed x = true ↔ n = identifier x := by
  rw [isNamed, beq_iff_eq, identifierName?_eq_some]

/-- The name of an element. -/
def elementName? : Node → Option Text
  | element name _ _ _ => some name
  | _ => none

/-- The names of the elements of a tree, walked or not. -/
def tags : Node → List Text :=
  fold fun n fields => n.elementName?.toList ++ (fields.flatMap (·.slot.nodes)).flatMap (·.2)

theorem tags_eq (n : Node) : n.tags = n.elementName?.toList ++ n.parts.flatMap tags := by
  rw [tags, fold_eq, flatMap_nodes_map, flatMap_map]
  rfl

/-- What stands in the fields of a node does not count for its own name. -/
theorem identifierName?_setSlots (s : Nat → Slot Node) (n : Node) :
    (n.setSlots s).identifierName? = n.identifierName? := by
  cases n <;> rfl

theorem elementName?_setSlots (s : Nat → Slot Node) (n : Node) :
    (n.setSlots s).elementName? = n.elementName? := by
  cases n <;> rfl

theorem isDeclarator_setSlots (s : Nat → Slot Node) (n : Node) :
    (n.setSlots s).isDeclarator = n.isDeclarator := by
  cases n <;> rfl

end Node

/-- What stands before the first dot of the name of an element. -/
def Text.firstSegment (t : Text) : Text :=
  t.takeWhile (· != CodePoint.ofChar '.')

/-- The names that a tree may hold. -/
structure Vocabulary where
  name : Text → Prop
  tag : Text → Prop

namespace Node

/-- A tree keeps to a vocabulary. Where it is not walked, its identifiers may
    have any names. -/
def Speaks (V : Vocabulary) (walked : Bool) (n : Node) : Prop :=
  (walked = true → ∀ x ∈ n.names, V.name x) ∧ ∀ t ∈ n.tags, V.tag t

/-- The root of a tree keeps to a vocabulary. -/
def RootSpeaks (V : Vocabulary) (walked : Bool) (n : Node) : Prop :=
  (walked = true → ∀ x ∈ n.identifierName?, V.name x) ∧ ∀ t ∈ n.elementName?, V.tag t

/-- All that stands below the root of a tree keeps to a vocabulary. -/
def PartsSpeak (V : Vocabulary) (walked : Bool) (n : Node) : Prop :=
  ∀ f ∈ n.fields, ∀ c ∈ f.slot.nodes, c.Speaks V (walked && f.walked)

variable {V W : Vocabulary} {w : Bool} {n : Node}

/-- A tree speaks as its root and the nodes below it do. -/
theorem speaks_iff : n.Speaks V w ↔ n.RootSpeaks V w ∧ n.PartsSpeak V w := by
  rw [Speaks, RootSpeaks, names_eq, tags_eq]
  constructor
  · rintro ⟨hnames, htags⟩
    refine ⟨⟨fun hw x hx => hnames hw x ?_, fun t ht => htags t ?_⟩,
      fun f hf c hc => ⟨fun hw x hx => ?_, fun t ht => ?_⟩⟩
    · exact mem_append_left _ (Option.mem_toList.2 hx)
    · exact mem_append_left _ (Option.mem_toList.2 ht)
    · have hw := (Bool.and_eq_true_iff.1 hw)
      refine hnames hw.1 x (mem_append_right _ (mem_flatMap.2 ⟨c, ?_, hx⟩))
      exact mem_flatMap.2 ⟨f, hf, by rwa [Field.walkedNodes, if_pos hw.2]⟩
    · exact htags t (mem_append_right _ (mem_flatMap.2 ⟨c, mem_parts hf hc, ht⟩))
  · rintro ⟨⟨hname, htag⟩, hparts⟩
    refine ⟨fun hw x hx => ?_, fun t ht => ?_⟩
    · rcases mem_append.1 hx with hx | hx
      · exact hname hw x (Option.mem_toList.1 hx)
      · obtain ⟨c, hc, hx⟩ := mem_flatMap.1 hx
        obtain ⟨f, hf, hc⟩ := mem_flatMap.1 hc
        rw [Field.walkedNodes] at hc
        split at hc
        · rename_i hwalked
          exact (hparts f hf c hc).1 (by rw [hw, hwalked]; rfl) x hx
        · cases hc
    · rcases mem_append.1 ht with ht | ht
      · exact htag t (Option.mem_toList.1 ht)
      · obtain ⟨c, hc, ht⟩ := mem_flatMap.1 ht
        obtain ⟨f, hf, hc⟩ := mem_flatMap.1 hc
        exact (hparts f hf c hc).2 t ht

/-- A tree keeps to every vocabulary that holds more names. -/
theorem Speaks.mono (h : n.Speaks V w) (hname : ∀ x, V.name x → W.name x)
    (htag : ∀ t, V.tag t → W.tag t) : n.Speaks W w :=
  ⟨fun hw x hx => hname x (h.1 hw x hx), fun t ht => htag t (h.2 t ht)⟩

/-- What is exchanged below a root makes no difference to the root. -/
theorem rootSpeaks_withSlots {slots : List (Slot Node)} :
    (n.withSlots slots).RootSpeaks V w ↔ n.RootSpeaks V w := by
  rw [RootSpeaks, withSlots, identifierName?_setSlots, elementName?_setSlots]
  rfl

/-- Other nodes can take the place of those below the root. A field that gets
    none keeps its own. -/
theorem partsSpeak_withSlots {slots : List (Slot Node)}
    (hgiven : ∀ i g, n.fields[i]? = some g →
      ∀ c ∈ (slots.getD i (.single none)).nodes, c.Speaks V (w && g.walked))
    (hkept : ∀ i g c, n.fields[i]? = some g → g.slot = .single (some c) →
      (slots.getD i (.single none)).nodes = [] → c.Speaks V (w && g.walked)) :
    (n.withSlots slots).PartsSpeak V w := by
  intro f hf c hc
  obtain ⟨i, hi⟩ := mem_iff_getElem?.1 hf
  obtain ⟨g, hg, hw, hkeeps⟩ := fields_setSlots hi
  rw [hw]
  rcases hkeeps c hc with hc | ⟨hslot, hnone⟩
  · exact hgiven i g hg c hc
  · exact hkept i g c hg hslot hnone

/-! ## Kinds of nodes -/

attribute [simp] fields

@[simp]
theorem speaks_identifier {name : Text} :
    (identifier name).Speaks V w ↔ (w = true → V.name name) := by
  rw [speaks_iff]
  simp [RootSpeaks, PartsSpeak, identifierName?, elementName?]

/-- A node of any other kind speaks as the nodes below it do. -/
theorem speaks_iff_partsSpeak (hi : n.identifierName? = none) (he : n.elementName? = none) :
    n.Speaks V w ↔ n.PartsSpeak V w := by
  rw [speaks_iff, RootSpeaks, hi, he]
  simp

@[simp]
theorem speaks_literal {value : Value} {spelling : Option Text} :
    (literal value spelling).Speaks V w :=
  (speaks_iff_partsSpeak rfl rfl).2 nofun

section Kinds

attribute [local simp] PartsSpeak Field.single Field.list Slot.nodes

@[simp]
theorem speaks_call {callee : Node} {arguments : List Node} {o : Bool} :
    (call callee arguments o).Speaks V w ↔ callee.Speaks V w ∧ ∀ a ∈ arguments, a.Speaks V w := by
  rw [speaks_iff_partsSpeak rfl rfl]
  simp

/-- The key of a member is walked only if it is computed. -/
@[simp]
theorem speaks_member {receiver property : Node} {computed o : Bool} :
    (member receiver property computed o).Speaks V w ↔
      receiver.Speaks V w ∧ property.Speaks V (w && computed) := by
  rw [speaks_iff_partsSpeak rfl rfl]
  simp

@[simp]
theorem speaks_assignment {operator : Text} {left right : Node} :
    (assignment operator left right).Speaks V w ↔ left.Speaks V w ∧ right.Speaks V w := by
  rw [speaks_iff_partsSpeak rfl rfl]
  simp

@[simp]
theorem speaks_parenthesized {expression : Node} :
    (parenthesized expression).Speaks V w ↔ expression.Speaks V w := by
  rw [speaks_iff_partsSpeak rfl rfl]
  simp

@[simp]
theorem speaks_program {body : List Node} :
    (program body).Speaks V w ↔ ∀ a ∈ body, a.Speaks V w := by
  rw [speaks_iff_partsSpeak rfl rfl]
  simp

@[simp]
theorem speaks_exprStmt {expression : Node} :
    (exprStmt expression).Speaks V w ↔ expression.Speaks V w := by
  rw [speaks_iff_partsSpeak rfl rfl]
  simp

@[simp]
theorem speaks_declarator {id : Node} {init : Option Node} :
    (declarator id init).Speaks V w ↔ id.Speaks V w ∧ ∀ a ∈ init, a.Speaks V w := by
  rw [speaks_iff_partsSpeak rfl rfl]
  simp

@[simp]
theorem speaks_varDecl {kind : VariableKind} {declarators : List Node} :
    (varDecl kind declarators).Speaks V w ↔ ∀ a ∈ declarators, a.Speaks V w := by
  rw [speaks_iff_partsSpeak rfl rfl]
  simp

/-- The name that an export has outside is not walked. -/
@[simp]
theorem speaks_exportName {binding exported : Node} :
    (exportName binding exported).Speaks V w ↔ binding.Speaks V w ∧ exported.Speaks V false := by
  rw [speaks_iff_partsSpeak rfl rfl]
  simp

@[simp]
theorem speaks_exportNamed {declaration : Option Node} {specifiers : List Node}
    {source : Option Node} :
    (exportNamed declaration specifiers source).Speaks V w ↔ (∀ a ∈ declaration, a.Speaks V w) ∧
      (∀ a ∈ specifiers, a.Speaks V w) ∧ ∀ a ∈ source, a.Speaks V false := by
  rw [speaks_iff_partsSpeak rfl rfl]
  simp

@[simp]
theorem speaks_exportDefault {declaration : Node} :
    (exportDefault declaration).Speaks V w ↔ declaration.Speaks V w := by
  rw [speaks_iff_partsSpeak rfl rfl]
  simp

end Kinds

@[simp]
theorem speaks_ungroup : n.ungroup.Speaks V w ↔ n.Speaks V w := by
  fun_induction ungroup n with
  | case1 e ih => rw [ih, speaks_parenthesized]
  | case2 n => rfl

/-- The walked nodes of a tree speak as it does. -/
theorem Speaks.of_mem_walk {c : Node} (h : n.Speaks V true) (hc : c ∈ n.walk) :
    c.Speaks V true := by
  induction n using induct with
  | h n ih =>
    rcases mem_walk_iff.1 hc with rfl | ⟨m, hm, hc⟩
    · exact h
    · obtain ⟨f, hf, hwalked, hm⟩ := mem_children_iff.1 hm
      exact ih m (mem_parts hf hm) (hwalked ▸ (speaks_iff.1 h).2 f hf m hm) hc

/-! ## Replacing -/

/-- A change of the walked nodes below the root changes the fields in place. -/
theorem fields_withSlots_map (g : Node → Node) (n : Node) :
    (n.withSlots (n.fields.map fun f => if f.walked then f.slot.map g else f.slot)).fields =
      n.fields.map fun f => { f with slot := if f.walked then f.slot.map g else f.slot } := by
  have hsingle (c : Node) : Slot.single (some (((Slot.single (some c)).map g).child c)) =
      (Slot.single (some c)).map g := rfl
  have hoptional (c : Option Node) : Slot.single ((Slot.single c).map g).child? =
      (Slot.single c).map g := by
    cases c <;> rfl
  have hlist (ns : List Node) : Slot.list (((Slot.list (ns.map some)).map g).nodes.map some) =
      (Slot.list (ns.map some)).map g := by
    rw [Slot.nodes_map_some]
    simp [Slot.map]
  have hkept_some (c old : Node) : (Slot.single (some c)).child old = c := rfl
  have hkept (c : Option Node) : (Slot.single c).child? = c := by
    cases c <;> rfl
  -- whether a key is walked depends on whether it is computed
  have hkey (c : Node) (walked : Bool) : Slot.single
      (some ((if walked = true then (Slot.single (some c)).map g else .single (some c)).child c)) =
        if walked = true then (Slot.single (some c)).map g else .single (some c) := by
    cases walked <;> rfl
  cases n <;> first
    | rfl
    | simp [withSlots, setSlots, Field.single, Field.list, hkept, hkept_some,
      hsingle, hoptional, hlist, hkey]

/-- A replacement of what walked fields hold replaces what is walked. -/
theorem children_withSlots_map (g : Node → Node) (n : Node) :
    (n.withSlots (n.fields.map fun f =>
      if f.walked then f.slot.map g else f.slot)).children = n.children.map g := by
  rw [children, fields_withSlots_map, children, flatMap_map, map_flatMap]
  refine flatMap_congr fun f _ => ?_
  rcases hw : f.walked with _ | _
  · simp [Field.walkedNodes, hw]
  · simp [Field.walkedNodes, hw, Slot.nodes_map]

/-- The nodes in the walked fields, each replaced. -/
def slotsMap (g : Node → Node) (n : Node) : List (Slot Node) :=
  n.fields.map fun field => if field.walked then field.slot.map g else field.slot

/-- Only what a walk finds right below a node counts for a replacement there. -/
theorem slotsMap_congr {g h : Node → Node} (hgh : ∀ c ∈ n.children, g c = h c) :
    n.slotsMap g = n.slotsMap h := by
  refine map_congr_left fun field hfield => ?_
  split
  · rename_i hwalked
    refine Slot.map_congr fun c hc => hgh c (mem_flatMap.2 ⟨field, hfield, ?_⟩)
    rwa [Field.walkedNodes, if_pos hwalked]
  · rfl

/-- Replacements that do not depend on functions are the same in them. -/
theorem replaceAll_nested (f : Node → Option Node) (n : Node) (nested : Bool) :
    n.replaceAll (fun _ => f) nested = n.replaceAll (fun _ => f) false := by
  induction n using induct generalizing nested with
  | h n ih =>
    have hslots : (n.fields.map fun field => if field.walked then
          field.slot.map (·.replaceAll (fun _ => f) (nested || n.isFunction)) else field.slot) =
        n.fields.map fun field => if field.walked then
          field.slot.map (·.replaceAll (fun _ => f) (false || n.isFunction)) else field.slot := by
      refine map_congr_left fun field hfield => ?_
      split
      · refine Slot.map_congr fun c hc => ?_
        rw [ih c (mem_parts hfield hc), ih c (mem_parts hfield hc) (false || n.isFunction)]
      · rfl
    rw [replaceAll_eq, hslots, replaceAll_eq _ n false]

/-- A change of the walked nodes below the root changes what they speak; those
    that are not walked stay. -/
theorem partsSpeak_map {g : Node → Node} (htag : ∀ t, W.tag t → V.tag t)
    (hg : ∀ c ∈ n.parts, c.Speaks W true → (g c).Speaks V true) (h : n.PartsSpeak W true) :
    (n.withSlots (n.fields.map fun f =>
      if f.walked then f.slot.map g else f.slot)).PartsSpeak V true := by
  refine partsSpeak_withSlots ?_ ?_
  · intro i f hf c hc
    have hmem := mem_of_getElem? hf
    rw [getD_eq_getElem?_getD, getElem?_map, hf] at hc
    change c ∈ (if f.walked then _ else f.slot).nodes at hc
    split at hc
    · rename_i hwalked
      rw [Slot.nodes_map] at hc
      obtain ⟨c', hc', rfl⟩ := mem_map.1 hc
      rw [hwalked]
      exact hg c' (mem_parts hmem hc') (hwalked ▸ h f hmem c' hc')
    · rename_i hwalked
      exact ⟨fun hw => absurd hw hwalked, fun t ht => htag t ((h f hmem c hc).2 t ht)⟩
  · -- a field that holds a node is given one
    intro i f c hf hslot hnone
    rw [getD_eq_getElem?_getD, getElem?_map, hf] at hnone
    change (if f.walked then _ else f.slot).nodes = [] at hnone
    rw [hslot] at hnone
    split at hnone <;> cases hnone

/-- Replacements in a tree change the vocabulary as they do for one node, over
    nodes that are replaced. -/
theorem speaks_replaceAll {f : Bool → Node → Option Node} (htag : ∀ t, W.tag t → V.tag t)
    (hf : ∀ nested m, m.RootSpeaks W true → m.PartsSpeak V true →
      ((f nested m).getD m).Speaks V true) (h : n.Speaks W true) (nested : Bool) :
    (n.replaceAll f nested).Speaks V true := by
  induction n using induct generalizing nested with
  | h n ih =>
    have ⟨hroot, hparts⟩ := speaks_iff.1 h
    rw [replaceAll_eq]
    exact hf nested _ (rootSpeaks_withSlots.2 hroot)
      (partsSpeak_map htag (fun c hc hw => ih c hc hw _) hparts)

/-- A replacement everywhere below a root leads to a vocabulary that each
    replacement leads to. -/
theorem speaks_replaceBelow {f : Bool → Node → Option Node} (htag : ∀ t, W.tag t → V.tag t)
    (hf : ∀ nested m, m.RootSpeaks W true → m.PartsSpeak V true →
      ((f nested m).getD m).Speaks V true) (hroot : n.RootSpeaks V true)
      (hparts : n.PartsSpeak W true) : (n.replaceBelow f).Speaks V true :=
  speaks_iff.2 ⟨rootSpeaks_withSlots.2 hroot,
    partsSpeak_map htag (fun _ _ hc => speaks_replaceAll htag hf hc _) hparts⟩

end Node

/-! ## Replacing with a fault -/

namespace Slot

variable {α β : Type} {f : α → Except Fault β} {s : Slot α} {s' : Slot β}

/-- What an effect gives for the contents of a field takes their place. -/
theorem forall₂_of_mapM (h : s.mapM f = .ok s') :
    List.Forall₂ (fun a b => f a = .ok b) s.nodes s'.nodes := by
  rcases s with child | items
  · obtain ⟨child', hchild', h⟩ := bind_eq_ok.1 h
    cases h
    rcases child with _ | a
    · cases hchild'
      exact .nil
    · obtain ⟨b, hb, rfl⟩ := map_eq_ok.1 hchild'
      exact .cons hb .nil
  · obtain ⟨items', hitems', heq⟩ := bind_eq_ok.1 h
    cases heq
    clear h
    replace hitems' := Resugar.forall₂_of_mapM hitems'
    -- a hole in a list stays a hole, and neither list of nodes has it
    induction hitems' with
    | nil => exact .nil
    | @cons o o' _ _ ho _ ih =>
      rcases o with _ | a
      · cases ho
        exact ih
      · obtain ⟨b, hb, rfl⟩ := map_eq_ok.1 ho
        exact .cons hb ih

theorem mem_of_mapM (h : s.mapM f = .ok s') {b : β} (hb : b ∈ s'.nodes) :
    ∃ a ∈ s.nodes, f a = .ok b :=
  exists_of_forall₂ (forall₂_of_mapM h) hb

/-- A field that holds a node still holds one after an effect. -/
theorem nodes_ne_nil_of_mapM (h : s.mapM f = .ok s') {a : α} (ha : s = .single (some a)) :
    s'.nodes ≠ [] := by
  subst ha
  obtain ⟨child', hchild', h⟩ := bind_eq_ok.1 h
  obtain ⟨b, -, rfl⟩ := map_eq_ok.1 hchild'
  cases h
  exact cons_ne_nil b []

/-- An effect after a function is one effect. -/
theorem mapM_map {γ : Type} (g : γ → α) (f : α → Except Fault β) (s : Slot γ) :
    (s.map g).mapM f = s.mapM fun c => f (g c) := by
  rcases s with child | items
  · cases child <;> rfl
  · rw [map, mapM, mapM, List.mapM_map]
    congr 2
    funext o
    cases o <;> rfl

end Slot

namespace Node

/-- A replacement with an effect goes through the walked fields first, and then
    comes to the root. -/
theorem replaceAllM_eq (f : Bool → Node → Except Fault (Option Node)) (n : Node) (nested : Bool) :
    n.replaceAllM f nested = do
      let slots ← n.fields.mapM fun field =>
        field.slot.mapM fun c =>
          if field.walked then c.replaceAllM f (nested || n.isFunction) else pure c
      return (← f nested (n.withSlots slots)).getD (n.withSlots slots) := by
  have hslots : (n.fields.map (Field.map fun c => (c, c.replaceAllM f))).mapM (fun field =>
        field.slot.mapM fun (c, r) => if field.walked then r (nested || n.isFunction) else pure c) =
      n.fields.mapM fun field =>
        field.slot.mapM fun c => if field.walked
          then c.replaceAllM f (nested || n.isFunction) else pure c := by
    rw [mapM_map]
    exact congrArg (n.fields.mapM ·) (funext fun field => Slot.mapM_map _ _ field.slot)
  rw [replaceAllM, fold_eq]
  exact congrArg (· >>= fun slots => do
    return (← f nested (n.withSlots slots)).getD (n.withSlots slots)) hslots

end Node

end Resugar
