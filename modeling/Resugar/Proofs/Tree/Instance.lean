import Resugar.Proofs.Tree.Vocabulary

/-!
# Touching the instance

In a constructor, `this` stands for the instance, and methods that are called on
`super` run on it as well. A tree *touches* the instance (`Node.touches`) if it
has one of them outside of nested functions, which have a `this` of their own;
or a name that stands for the instance. In a class with a superclass there is no
instance yet before `super(…)` is called.
-/

namespace Resugar

open List

/-! ## Replacements that can fail -/

section

variable {α β : Type} {f : α → Except Fault β} {g : α → β}

/-- A run that gives, item by item, what a function does gives the whole list
    that the function gives. -/
theorem eq_map_of_mapM {l : List α} {r : List β} (h : l.mapM f = .ok r)
    (hg : ∀ a ∈ l, ∀ b, f a = .ok b → b = g a) : r = l.map g := by
  induction l generalizing r with
  | nil =>
    cases h
    rfl
  | cons a l ih =>
    rw [mapM_cons] at h
    obtain ⟨b, hb, h⟩ := bind_eq_ok.1 h
    obtain ⟨r', hr', h⟩ := bind_eq_ok.1 h
    cases h
    rw [hg a mem_cons_self b hb, ih hr' fun c hc => hg c (mem_cons_of_mem _ hc)]
    rfl

/-- The same for what a field holds. -/
theorem Slot.eq_map_of_mapM {s : Slot α} {s' : Slot β} (h : s.mapM f = .ok s')
    (hg : ∀ a ∈ s.nodes, ∀ b, f a = .ok b → b = g a) : s' = s.map g := by
  rcases s with child | items
  · obtain ⟨child', hchild', h⟩ := bind_eq_ok.1 h
    cases h
    rcases child with _ | a
    · cases hchild'
      rfl
    · obtain ⟨b, hb, rfl⟩ := map_eq_ok.1 hchild'
      rw [hg a (mem_singleton_self a) b hb]
      rfl
  · obtain ⟨items', hitems', h⟩ := bind_eq_ok.1 h
    cases h
    rw [Resugar.eq_map_of_mapM hitems' (g := Option.map g)]
    · rfl
    · intro o ho o' ho'
      rcases o with _ | a
      · cases ho'
        rfl
      · obtain ⟨b, hb, rfl⟩ := map_eq_ok.1 ho'
        rw [hg a (mem_filterMap.2 ⟨some a, ho, rfl⟩) b hb]
        rfl

end

namespace Node

/-- A replacement without its faults. -/
def faultless (f : Bool → Node → Except Fault (Option Node)) (nested : Bool) (n : Node) :
    Option Node :=
  (f nested n).toOption.join

/-- A replacement that meets no fault does what it does without its faults. -/
theorem replaceAll_of_replaceAllM {f : Bool → Node → Except Fault (Option Node)} {n n' : Node}
    {nested : Bool} (h : n.replaceAllM f nested = .ok n') :
    n' = n.replaceAll (faultless f) nested := by
  induction n using induct generalizing nested n' with
  | h n ih =>
    rw [replaceAllM_eq] at h
    obtain ⟨slots, hslots, h⟩ := bind_eq_ok.1 h
    obtain ⟨o, ho, h⟩ := bind_eq_ok.1 h
    cases h
    have hslots : slots = n.fields.map fun field =>
        if field.walked then field.slot.map
          (·.replaceAll (faultless f) (nested || n.isFunction)) else field.slot := by
      -- what is not walked is passed on as it is
      refine eq_map_of_mapM hslots fun field hfield slot hslot => ?_
      rcases hw : field.walked with _ | _
      · rw [hw] at hslot
        rw [Slot.eq_map_of_mapM (g := id) hslot fun c _ c' hc' => (Except.ok.inj hc').symm]
        rcases field.slot with child | items <;> simp [Slot.map]
      · rw [hw] at hslot
        exact Slot.eq_map_of_mapM hslot fun c hc c' hc' => ih c (mem_parts hfield hc) hc'
    rw [replaceAll_eq, ← hslots]
    simp only [faultless, ho, Except.toOption, Option.join_some]

/-! ## Trees -/

/-- `this` and `super` -/
def isInstance : Node → Bool
  | thisExpr => true
  | superExpr => true
  | _ => false

/-- Whether a tree has `this`, `super` or some names outside of functions. -/
def touches (stands : Text → Bool) : Node → Bool :=
  fold fun n fields => n.isInstance || n.identifierName?.any stands ||
    (!n.isFunction && (fields.flatMap Field.walkedNodes).any (·.2))

/-- `super` -/
def isSuper : Node → Bool
  | superExpr => true
  | _ => false

/-- What a call calls. -/
def callee? : Node → Option Node
  | call callee _ _ => some callee
  | _ => none

/-- The expression of a statement. -/
def expression? : Node → Option Node
  | exprStmt e => some e
  | _ => none

/-- `super(…)` -/
def callsSuper (n : Node) : Bool :=
  n.callee?.any isSuper

/-- The statement `super(…);` -/
def isSuperCall (n : Node) : Bool :=
  n.expression?.any callsSuper

variable {n : Node} {stands stands' : Text → Bool}

/-- A tree touches the instance at its root, or below if it is no function. -/
theorem touches_eq (n : Node) :
    n.touches stands = (n.isInstance || n.identifierName?.any stands ||
      (!n.isFunction && n.children.any (touches stands))) := by
  rw [touches, fold_eq, flatMap_walkedNodes_map, any_map]
  rfl

@[simp]
theorem touches_identifier {x : Text} : (identifier x).touches stands = stands x := by
  rw [touches_eq]
  simp [isInstance, identifierName?, isFunction, children, fields]

@[simp]
theorem touches_thisExpr : thisExpr.touches stands = true := by
  rw [touches_eq]
  rfl

@[simp]
theorem touches_superExpr : superExpr.touches stands = true := by
  rw [touches_eq]
  rfl

/-- Any other node touches the instance if it is no function and one of the
    nodes below it does. -/
theorem touches_of_children (hinstance : n.isInstance = false) (hname : n.identifierName? = none)
    (hfunction : n.isFunction = false) : n.touches stands = n.children.any (touches stands) := by
  rw [touches_eq, hinstance, hname, hfunction]
  rfl

theorem touches_ungroup (n : Node) : n.ungroup.touches stands = n.touches stands := by
  fun_induction ungroup n with
  | case1 e ih =>
    rw [ih, touches_eq (parenthesized e)]
    simp [isInstance, identifierName?, isFunction, children, fields, Field.walkedNodes,
      Field.single, Slot.nodes]
  | case2 => rfl

/-- A member touches the instance in its receiver, or in a computed key. -/
theorem touches_member {receiver property : Node} {computed o : Bool} :
    (member receiver property computed o).touches stands =
      (receiver.touches stands || (computed && property.touches stands)) := by
  rw [touches_of_children rfl rfl rfl]
  -- the property is walked only if it is computed
  cases computed <;> simp [children, fields, Field.walkedNodes, Field.single, Slot.nodes]

theorem touches_call {callee : Node} {arguments : List Node} {o : Bool} :
    (call callee arguments o).touches stands =
      (callee.touches stands || arguments.any (touches stands)) := by
  rw [touches_of_children rfl rfl rfl]
  simp [children, fields, Field.walkedNodes, Field.single, Field.list, Slot.nodes]

theorem touches_assignment {operator : Text} {left right : Node} :
    (assignment operator left right).touches stands =
      (left.touches stands || right.touches stands) := by
  rw [touches_of_children rfl rfl rfl]
  simp [children, fields, Field.walkedNodes, Field.single, Slot.nodes]

theorem touches_exprStmt {e : Node} : (exprStmt e).touches stands = e.touches stands := by
  rw [touches_of_children rfl rfl rfl]
  simp [children, fields, Field.walkedNodes, Field.single, Slot.nodes]

theorem touches_declarator {id : Node} {init : Option Node} :
    (declarator id init).touches stands = (id.touches stands || init.any (touches stands)) := by
  rw [touches_of_children rfl rfl rfl]
  cases init <;> simp [children, fields, Field.walkedNodes, Field.single, Slot.nodes]

theorem touches_varDecl {kind : VariableKind} {ds : List Node} :
    (varDecl kind ds).touches stands = ds.any (touches stands) := by
  rw [touches_of_children rfl rfl rfl]
  simp [children, fields, Field.walkedNodes, Field.list, Slot.nodes]

theorem isSuperCall_varDecl {kind : VariableKind} {ds : List Node} :
    (varDecl kind ds).isSuperCall = false := rfl

section

variable (g : Node → Node) (n : Node)

theorem isSuper_withSlots (slots : List (Slot Node)) : (n.withSlots slots).isSuper = n.isSuper := by
  cases n <;> rfl

/-- A replacement below a call replaces what it calls. -/
theorem callee?_withSlots_map :
    (n.withSlots (n.fields.map fun f =>
      if f.walked then f.slot.map g else f.slot)).callee? = n.callee?.map g := by
  cases n <;> rfl

/-- A replacement below a statement replaces its expression. -/
theorem expression?_withSlots_map :
    (n.withSlots (n.fields.map fun f => if f.walked then f.slot.map g else f.slot)).expression? =
      n.expression?.map g := by
  cases n <;> rfl

/-- A change of the nodes below the root changes what they touch. -/
theorem touches_withSlots_map (hname : n.identifierName? = none) :
    (n.withSlots (n.fields.map fun f => if f.walked then f.slot.map g else f.slot)).touches stands =
      (n.isInstance || (!n.isFunction && n.children.any fun c => (g c).touches stands)) := by
  have hinstance (slots : List (Slot Node)) : (n.withSlots slots).isInstance = n.isInstance := by
    cases n <;> rfl
  have hfunction (slots : List (Slot Node)) : (n.withSlots slots).isFunction = n.isFunction := by
    cases n <;> rfl
  have hname (slots : List (Slot Node)) : (n.withSlots slots).identifierName? = none :=
    (identifierName?_setSlots _ n).trans hname
  rw [touches_eq, hinstance, hfunction, hname, children_withSlots_map, any_map,
    Option.any_none, Bool.or_false]
  rfl

end

/-! ## Replacements -/

/-- `super`, a call of it, or the statement that does nothing else. -/
def isSuperForm (n : Node) : Bool :=
  n.isSuper || n.callsSuper || n.isSuperCall

/-- The names that stand for the instance before a replacement is made. -/
def standsBehind (f : Node → Option Node) (stands : Text → Bool) (x : Text) : Bool :=
  ((f (identifier x)).getD (identifier x)).touches stands

/-- A replacement of nodes outside of nested functions that keeps `super(…)`,
    and that changes what touches the instance only by the names that it
    replaces. -/
structure KeepsInstance (stands : Text → Bool) (f : Node → Option Node) : Prop where
  name : ∀ x v, f (identifier x) = some v → v.isSuperForm = false
  other : ∀ n v, n.identifierName? = none → f n = some v →
    v.touches stands = n.touches stands ∧ v.isSuperForm = false ∧ n.isSuperForm = false

namespace KeepsInstance

section

variable {f : Node → Option Node} (hf : KeepsInstance stands f)
include hf

theorem touches (hname : n.identifierName? = none) :
    ((f n).getD n).touches stands = n.touches stands := by
  rcases h : f n with _ | v
  · rfl
  · exact (hf.other n v hname h).1

/-- What takes the place of a node is a form of `super` as the node is. -/
theorem superForms (n : Node) : ((f n).getD n).isSuper = n.isSuper ∧
    ((f n).getD n).callsSuper = n.callsSuper ∧ ((f n).getD n).isSuperCall = n.isSuperCall := by
  rcases h : f n with _ | v
  · exact ⟨rfl, rfl, rfl⟩
  · obtain ⟨hv, hn⟩ : v.isSuperForm = false ∧ n.isSuperForm = false := by
      rcases hname : n.identifierName? with _ | x
      · exact (hf.other n v hname h).2
      · -- a name is no `super`, so what stands for it must not be one either
        obtain rfl := identifierName?_eq_some.1 hname
        exact ⟨hf.name x v h, rfl⟩
    simp only [isSuperForm, Bool.or_eq_false_iff] at hv hn
    exact ⟨hv.1.1.trans hn.1.1.symm, hv.1.2.trans hn.1.2.symm, hv.2.trans hn.2.symm⟩

end

variable {f : Bool → Node → Option Node} (hf : KeepsInstance stands (f false))
include hf

/-- After the replacements a tree touches the instance where it did before, by
    what stands for the names. -/
theorem touches_replaceAll (n : Node) :
    (n.replaceAll f false).touches stands = n.touches (standsBehind (f false) stands) := by
  induction n using induct with
  | h n ih =>
    rcases hname : n.identifierName? with _ | x
    · rw [replaceAll_eq, hf.touches, touches_withSlots_map _ n hname, touches_eq n, hname,
        Option.any_none, Bool.or_false]
      · rcases hfunction : n.isFunction with _ | _
        · -- outside of functions, the nodes below have been replaced in the same way
          congr 2
          rw [Bool.eq_iff_iff, any_eq_true, any_eq_true]
          exact exists_congr fun c => and_congr_right fun hc => by
            rw [Bool.false_or, ih c (mem_parts_of_mem_children hc)]
        · rfl
      · exact (identifierName?_setSlots _ n).trans hname
    · obtain rfl := identifierName?_eq_some.1 hname
      rw [touches_identifier]
      rfl

theorem isSuper_replaceAll (n : Node) : (n.replaceAll f false).isSuper = n.isSuper := by
  rw [replaceAll_eq, (hf.superForms _).1, isSuper_withSlots]

theorem callsSuper_replaceAll (n : Node) : (n.replaceAll f false).callsSuper = n.callsSuper := by
  rw [replaceAll_eq, (hf.superForms _).2.1, callsSuper, callee?_withSlots_map, callsSuper]
  cases n <;> first | rfl | exact hf.isSuper_replaceAll _

theorem isSuperCall_replaceAll (n : Node) : (n.replaceAll f false).isSuperCall = n.isSuperCall := by
  rw [replaceAll_eq, (hf.superForms _).2.2, isSuperCall, expression?_withSlots_map, isSuperCall]
  cases n <;> first | rfl | exact hf.callsSuper_replaceAll _

end KeepsInstance

/-! ## Statements -/

/-- The first `super(…)` comes before anything that touches the instance. -/
def CallsSuperFirst (stands : Text → Bool) (body : List Node) : Prop :=
  ∃ before s after, body = before ++ s :: after ∧ s.isSuperCall = true ∧ ∀ t ∈ before,
    t.touches stands = false

/-- Whether some statements touch the instance before they call `super(…)`;
    `none` if they do not call it. -/
def touchesEarly? (stands : Text → Bool) : List Node → Option Bool
  | [] => none
  | s :: rest =>
    if s.isSuperCall then some false else (touchesEarly? stands rest).map (s.touches stands || ·)

variable {s : Node} {body : List Node}

theorem callsSuperFirst_iff :
    CallsSuperFirst stands body ↔ touchesEarly? stands body = some false := by
  induction body with
  | nil =>
    refine ⟨?_, fun h => by cases h⟩
    rintro ⟨before, s, after, heq, -⟩
    cases before <;> cases heq
  | cons s rest ih =>
    rw [touchesEarly?]
    split
    · rename_i hs
      exact ⟨fun _ => rfl, fun _ => ⟨[], s, rest, rfl, hs, forall_mem_nil _⟩⟩
    · rename_i hs
      rw [Option.map_eq_some_iff]
      constructor
      · rintro ⟨before, t, after, heq, ht, hbefore⟩
        rcases before with _ | ⟨s', before⟩
        · cases heq
          exact absurd ht hs
        · cases heq
          obtain ⟨hs, hbefore⟩ := forall_mem_cons.1 hbefore
          exact ⟨false, ih.1 ⟨before, t, after, rfl, ht, hbefore⟩, by rw [hs]; rfl⟩
      · rintro ⟨early, hearly, hor⟩
        obtain ⟨htouches, rfl⟩ := Bool.or_eq_false_iff.1 hor
        obtain ⟨before, t, after, rfl, ht, hbefore⟩ := ih.2 hearly
        exact ⟨s :: before, t, after, rfl, ht, forall_mem_cons.2 ⟨htouches, hbefore⟩⟩

theorem touchesEarly?_isSome : (touchesEarly? stands body).isSome = body.any isSuperCall := by
  induction body with
  | nil => rfl
  | cons s rest ih =>
    rw [touchesEarly?, any_cons]
    split
    · rename_i hs
      rw [hs]
      rfl
    · rename_i hs
      rw [Option.isSome_map, ih, Bool.eq_false_iff.2 hs, Bool.false_or]

/-- A change that keeps what statements touch and their `super(…)`. -/
theorem touchesEarly?_map {g : Node → Node} (hcall : ∀ s, (g s).isSuperCall = s.isSuperCall)
    (htouches : ∀ s, (g s).touches stands' = s.touches stands) (body : List Node) :
    touchesEarly? stands' (body.map g) = touchesEarly? stands body := by
  induction body with
  | nil => rfl
  | cons s rest ih => rw [map_cons, touchesEarly?, touchesEarly?, hcall, htouches, ih]

/-- Statements at the end that do not call `super(…)` make no difference. -/
theorem touchesEarly?_concat (hs : s.isSuperCall = false) (body : List Node) :
    touchesEarly? stands (body ++ [s]) = touchesEarly? stands body := by
  induction body with
  | nil => simp [touchesEarly?, hs]
  | cons t rest ih => rw [cons_append, touchesEarly?, touchesEarly?, ih]

/-- The replacements leave the order of `super(…)` and of what touches the
    instance as it is. -/
theorem touchesEarly?_replaceAll {f : Bool → Node → Option Node}
    (hf : KeepsInstance stands (f false)) (body : List Node) :
    touchesEarly? stands (body.map (·.replaceAll f false)) =
      touchesEarly? (standsBehind (f false) stands) body :=
  touchesEarly?_map hf.isSuperCall_replaceAll hf.touches_replaceAll body

/-! ## Statements that go -/

/-- If some statements call `super(…)`, others do so as well, and touch the
    instance no earlier. -/
def NoEarlier (stands : Text → Bool) (body' body : List Node) : Prop :=
  ∀ early, touchesEarly? stands body = some early →
    ∃ early', touchesEarly? stands body' = some early' ∧ (early' = true → early = true)

namespace NoEarlier

variable {rest rest' body' body'' : List Node} {s' : Node}

theorem refl (body : List Node) : NoEarlier stands body body :=
  fun early h => ⟨early, h, id⟩

/-- Coming no earlier is transitive. -/
theorem trans (h : NoEarlier stands body'' body') (h' : NoEarlier stands body' body) :
    NoEarlier stands body'' body := by
  intro early hearly
  obtain ⟨early', hearly', himp⟩ := h' early hearly
  obtain ⟨early'', hearly'', himp'⟩ := h early' hearly'
  exact ⟨early'', hearly'', himp ∘ himp'⟩

/-- A statement may be changed at the head if it touches nothing new. -/
theorem cons (hcall : s'.isSuperCall = s.isSuperCall)
    (htouches : s'.touches stands = true → s.touches stands = true)
    (h : NoEarlier stands rest' rest) : NoEarlier stands (s' :: rest') (s :: rest) := by
  intro early hearly
  rw [touchesEarly?] at hearly
  rw [touchesEarly?, hcall]
  split at hearly
  · rename_i hs
    exact ⟨false, if_pos hs, fun h => by cases h⟩
  · rename_i hs
    obtain ⟨b, hb, rfl⟩ := Option.map_eq_some_iff.1 hearly
    obtain ⟨b', hb', himp⟩ := h b hb
    refine ⟨s'.touches stands || b',
      by rw [if_neg hs, hb']; rfl, fun hor => Bool.or_eq_true_iff.2 ?_⟩
    exact (Bool.or_eq_true_iff.1 hor).imp htouches himp

/-- A statement that does not call `super(…)` can be left out. -/
theorem drop (hs : s.isSuperCall = false) (h : NoEarlier stands rest' rest) :
    NoEarlier stands rest' (s :: rest) := by
  intro early hearly
  rw [touchesEarly?, hs] at hearly
  obtain ⟨b, hb, rfl⟩ := Option.map_eq_some_iff.1 hearly
  obtain ⟨b', hb', himp⟩ := h b hb
  exact ⟨b', hb', fun hb' => Bool.or_eq_true_iff.2 (.inr (himp hb'))⟩

end NoEarlier

end Node

end Resugar
