import Resugar.Proofs.Tree.Compositional

/-!
# Markup, imports and exports throughout a tree

Elements, imports and exports can stand anywhere in a tree, walked or not
(`Node.descendants`). A property of such nodes holds throughout a tree
(`Node.Holds`) if all that there are have it. It lasts when nodes of other kinds
are replaced, if it does not depend on more than the kinds of the nodes right
below (`Node.Stable`).
-/

namespace Resugar

open List

namespace Node

/-- A node and all nodes below it, walked or not. -/
def descendants : Node → List Node :=
  fold fun n fields => n :: (fields.flatMap (·.slot.nodes)).flatMap (·.2)

theorem descendants_eq (n : Node) : n.descendants = n :: n.parts.flatMap descendants := by
  rw [descendants, fold_eq, flatMap_nodes_map, flatMap_map]
  rfl

/-- All markup, all imports and all exports in a tree have a property. -/
def Holds (p : Node → Prop) (n : Node) : Prop :=
  ∀ m ∈ n.descendants, m.isForeign = true → p m

variable {p q : Node → Prop} {n : Node}

theorem holds_iff : n.Holds p ↔ (n.isForeign = true → p n) ∧ ∀ c ∈ n.parts, c.Holds p := by
  rw [Holds, descendants_eq, forall_mem_cons, forall_mem_flatMap]
  rfl

/-- A node of any other kind has what the nodes below it have. -/
theorem holds_iff_parts (h : n.isForeign = false) : n.Holds p ↔ ∀ c ∈ n.parts, c.Holds p := by
  rw [holds_iff, h]
  exact and_iff_right nofun

theorem Holds.mono (h : n.Holds p) (hpq : ∀ m, p m → q m) : n.Holds q :=
  fun m hm hforeign => hpq m (h m hm hforeign)

theorem Holds.of_mem_parts {c : Node} (h : n.Holds p) (hc : c ∈ n.parts) : c.Holds p :=
  (holds_iff.1 h).2 c hc

theorem Holds.of_mem_walk {c : Node} (h : n.Holds p) (hc : c ∈ n.walk) : c.Holds p := by
  induction n using induct with
  | h n ih =>
    rcases mem_walk_iff.1 hc with rfl | ⟨m, hm, hc⟩
    · exact h
    · have hm := mem_parts_of_mem_children hm
      exact ih m hm (h.of_mem_parts hm) hc

@[simp]
theorem holds_identifier {x : Text} : (identifier x).Holds p :=
  (holds_iff_parts rfl).2 nofun

@[simp]
theorem holds_literal {value : Value} {spelling : Option Text} : (literal value spelling).Holds p :=
  (holds_iff_parts rfl).2 nofun

/-- What holds throughout a tree depends on no roles. -/
theorem holds_compositional (p : Node → Prop) : Compositional fun _ n => n.Holds p where
  any h _ := h
  iff {_ n} hn _ _ := by
    have hforeign : n.isForeign = false := by simpa using (Bool.and_eq_true_iff.1 hn).1
    rw [holds_iff_parts hforeign, parts, forall_mem_flatMap]
    refine ⟨fun h p hp => h p.1 (fst_mem_of_mem_zipIdx hp), fun h f hf => ?_⟩
    obtain ⟨i, hi⟩ := mem_iff_getElem?.1 hf
    exact h (f, i) (mem_zipIdx_iff_getElem?.2 hi)
  unwalked := holds_identifier

/-! ## Replacing -/

/-- What can stand in a tag: an attribute, but none named `children`. -/
def isTagAttribute : Node → Bool
  | namedAttribute name _ => name != Text.ofString "children"
  | spreadAttribute _ => true
  | _ => false

/-- What can stand between tags. -/
def isTagChild : Node → Bool
  | element .. => true
  | container .. => true
  | markupText .. => true
  | _ => false

/-- A node can take the place of another one in an element. -/
structure Like (n n' : Node) : Prop where
  inTag : n.isTagAttribute = true → n'.isTagAttribute = true
  betweenTags : n.isTagChild = true → n'.isTagChild = true

theorem isForeign_setSlots (s : Nat → Slot Node) (n : Node) :
    (n.setSlots s).isForeign = n.isForeign := by
  cases n <;> rfl

theorem like_setSlots (n : Node) (s : Nat → Slot Node) : Like n (n.setSlots s) := by
  constructor <;> cases n <;> exact id

theorem like_of_isForeign_eq_false {n' : Node} (h : n.isForeign = false) : Like n n' := by
  constructor <;> cases n <;> first | exact fun h => Bool.noConfusion h | cases h

/-- A property that an import or an export has whatever stands below it, and
    markup over nodes of the same kinds. -/
structure Stable (p : Node → Prop) : Prop where
  moduleItem {n : Node} (s : Nat → Slot Node) : n.isModuleItem = true → p n → p (n.setSlots s)
  markup {n : Node} {s : Nat → Slot Node} : n.isMarkup = true →
    (∀ i f, n.fields[i]? = some f → List.Forall₂ Like f.slot.nodes (s i).nodes) →
    p n → p (n.setSlots s)

/-- A node can take the place of another one, and what holds throughout that one
    holds throughout it. -/
def Follows (p : Node → Prop) (n n' : Node) : Prop :=
  Like n n' ∧ (n.Holds p → n'.Holds p)

theorem follows_self (p : Node → Prop) (n : Node) : Follows p n n :=
  ⟨⟨id, id⟩, id⟩

/-- A node whose parts are exchanged for like ones can keep its own. -/
theorem follows_withSlots (hp : Stable p) {slots : List (Slot Node)}
    (hs : ∀ i f, n.fields[i]? = some f →
      List.Forall₂ (Follows p) f.slot.nodes (slots.getD i (.single none)).nodes) :
    Follows p n (n.withSlots slots) := by
  refine ⟨like_setSlots n _, fun h => holds_iff.2 ⟨fun hforeign => ?_, fun c hc => ?_⟩⟩
  · rw [withSlots, isForeign_setSlots] at hforeign
    have hroot := (holds_iff.1 h).1 hforeign
    rcases Bool.or_eq_true_iff.1 hforeign with hmarkup | hitem
    · exact hp.markup hmarkup (fun i f hf => (hs i f hf).imp fun _ _ h => h.1) hroot
    · exact hp.moduleItem _ hitem hroot
  · obtain ⟨f, hf, hc⟩ := mem_flatMap.1 hc
    obtain ⟨i, hi⟩ := mem_iff_getElem?.1 hf
    obtain ⟨g, hg, -, hkeeps⟩ := fields_setSlots hi
    have hmem := mem_of_getElem? hg
    rcases hkeeps c hc with hc | ⟨hslot, -⟩
    · obtain ⟨c', hc', hfollows⟩ := exists_of_forall₂ (hs i g hg) hc
      exact hfollows.2 (h.of_mem_parts (mem_parts hmem hc'))
    · exact h.of_mem_parts (mem_parts hmem (by rw [hslot]; exact mem_singleton_self c))

/-- So can what takes the place of the node itself, if this is not markup. -/
theorem follows_getD (hp : Stable p) {slots : List (Slot Node)}
    (hs : ∀ i f, n.fields[i]? = some f →
      List.Forall₂ (Follows p) f.slot.nodes (slots.getD i (.single none)).nodes) {o : Option Node}
    (ho : ∀ m ∈ o, (n.withSlots slots).isForeign = false ∧
      ((n.withSlots slots).Holds p → m.Holds p)) : Follows p n (o.getD (n.withSlots slots)) := by
  cases o with
  | none => exact follows_withSlots hp hs
  | some m =>
    obtain ⟨hforeign, hm⟩ := ho m rfl
    rw [withSlots, isForeign_setSlots] at hforeign
    exact ⟨like_of_isForeign_eq_false hforeign, hm ∘ (follows_withSlots hp hs).2⟩

/-- A change of the walked nodes below a node. -/
theorem forall₂_follows_map {g : Node → Node} (hg : ∀ c ∈ n.parts, Follows p c (g c)) (i : Nat)
    (f : Field Node) (hf : n.fields[i]? = some f) :
    List.Forall₂ (Follows p) f.slot.nodes
      ((n.fields.map fun (f : Field Node) => if f.walked then f.slot.map g else f.slot).getD i
        (.single none)).nodes := by
  rw [getD_eq_getElem?_getD, getElem?_map, hf]
  change List.Forall₂ (Follows p) f.slot.nodes (if f.walked then f.slot.map g else f.slot).nodes
  split
  · rw [Slot.nodes_map, forall₂_map_right_iff, forall₂_same]
    exact fun c hc => hg c (mem_parts (mem_of_getElem? hf) hc)
  · exact forall₂_same.2 fun c _ => follows_self p c

section

variable {f : Bool → Node → Option Node} (hp : Stable p)
  (hf : ∀ nested m m', f nested m = some m' → m.isForeign = false ∧ (m.Holds p → m'.Holds p))
include hp hf

theorem follows_replaceAll (n : Node) (nested : Bool) : Follows p n (n.replaceAll f nested) := by
  induction n using induct generalizing nested with
  | h n ih =>
    rw [replaceAll_eq]
    exact follows_getD hp (forall₂_follows_map fun c hc => ih c hc _) (hf nested _)

/-- Replacements elsewhere keep what holds of the markup, the imports and the
    exports of a tree. -/
theorem Holds.replaceAll (h : n.Holds p) (nested : Bool) : (n.replaceAll f nested).Holds p :=
  (follows_replaceAll hp hf n nested).2 h

theorem Holds.replaceBelow (h : n.Holds p) : (n.replaceBelow f).Holds p :=
  (follows_withSlots hp (forall₂_follows_map fun c _ => follows_replaceAll hp hf c _)).2 h

end

/-- Replacements that can fail do so too. -/
theorem Holds.replaceAllM (hp : Stable p) {f : Bool → Node → Except Fault (Option Node)}
    (hf : ∀ nested m m', f nested m = .ok (some m') → m.isForeign = false ∧
      (m.Holds p → m'.Holds p)) (h : n.Holds p) {nested : Bool} {r : Node}
      (hr : n.replaceAllM f nested = .ok r) : r.Holds p := by
  suffices hfollows : Follows p n r from hfollows.2 h
  clear h
  induction n using induct generalizing nested r with
  | h n ih =>
    rw [replaceAllM_eq] at hr
    obtain ⟨slots, hslots, hr⟩ := bind_eq_ok.1 hr
    obtain ⟨o, ho, hr⟩ := bind_eq_ok.1 hr
    cases hr
    refine follows_getD hp (fun i field hfield => ?_) fun m hm =>
      hf nested _ m (by rw [ho, Option.mem_def.1 hm])
    obtain ⟨slot, hslot, hmap⟩ := getElem?_of_mapM hslots hfield
    rw [getD_eq_getElem?_getD, hslot]
    have hparts : ∀ c ∈ field.slot.nodes, c ∈ n.parts :=
      fun c => mem_parts (mem_of_getElem? hfield)
    refine ((forall₂_and_left _ _).2 ⟨hparts, Slot.forall₂_of_mapM hmap⟩).imp
      fun c c' ⟨hc, hcc'⟩ => ?_
    split at hcc'
    · exact ih c hc hcc'
    · cases hcc'
      exact follows_self p c

/-- What holds throughout a tree is hereditary. -/
theorem Stable.hereditary (hp : Stable p) : Hereditary fun _ n => n.Holds p where
  toCompositional := holds_compositional p
  exchanges f n nested hf h := by
    refine h.replaceAll hp (fun nested m m' hm' => ?_) nested
    obtain ⟨hcall, hm⟩ := hf nested m m' hm'
    refine ⟨?_, hm⟩
    unfold isCall at hcall
    split at hcall
    · rfl
    · cases hcall
  name h := h
  bound h := h
  assigned h := h

end Node

end Resugar
