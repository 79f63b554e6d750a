import Resugar.Proofs.Class.Rebuilt
import Resugar.Proofs.Declared
import Resugar.Proofs.Markup.Element
import Resugar.Proofs.Pass.Derivation

/-!
# The vocabulary of a visited program

Which names can stand in a program once it is visited? Those of the program
itself, new names that the pass gives and reserves, `undefined` in rebuilt
classes, and, for elements, what the tags of markup calls spell. A vocabulary
that has all these is *admitted* by the visit (`Vocabulary.Admits`), and the
visited program keeps to it.
-/

namespace Resugar

open Node

/-! ## Renaming -/

namespace Vocabulary

/-- The names that renaming takes into a vocabulary, or that are in it. -/
def before (V : Vocabulary) (r : Renaming) : Vocabulary :=
  ⟨fun x => V.name x ∨ r.has x = true, V.tag⟩

end Vocabulary

namespace Renaming

variable {V : Vocabulary} {r r' : Renaming} {n : Node}

/-- A table that goes on from another one gives the same names as that. -/
theorem get?_of_prefix (h : r.entries <+: r'.entries) {x y : Text} (hx : r.get? x = some y) :
    r'.get? x = some y := by
  obtain ⟨rest, hrest⟩ := h
  rw [get?, Table.get?] at hx ⊢
  rw [← hrest, List.lookup_append, hx]
  rfl

/-- A tree that a table takes into a vocabulary is taken there by every table
    that goes on from it. -/
theorem speaks_before_mono (h : r.entries <+: r'.entries) {w : Bool}
    (hn : n.Speaks (V.before r) w) : n.Speaks (V.before r') w := by
  refine hn.mono (fun x hx => hx.imp_right fun hhas => ?_) fun t ht => ht
  obtain ⟨y, hy⟩ := Option.isSome_iff_exists.1 hhas
  rw [has, get?_of_prefix h hy]
  rfl

/-- A renaming takes a name that may be renamed into the vocabulary. -/
theorem apply_name (hr : ∀ e ∈ r.entries, V.name e.2) {x : Text} (hx : (V.before r).name x) :
    V.name (r.apply x) := by
  unfold apply
  cases hget : r.get? x with
  | none =>
    refine hx.resolve_right fun hhas => ?_
    rw [has, hget] at hhas
    cases hhas
  | some y => exact hr (x, y) (Table.mem_of_get? hget)

/-- `a` has no names besides those of `a.default`. -/
theorem collapse?_speaks {n' : Node} (h : r.collapse? n = some n') (hn : n.Speaks V true) :
    n'.Speaks V true := by
  obtain ⟨x, property, computed, o, rfl, rfl, -⟩ := collapse?_eq_some h
  exact (speaks_member.1 hn).1

/-- Only the name of an identifier changes, so any other root keeps to the
    vocabulary as it is. -/
theorem rootSpeaks_of_not_identifier (hid : ∀ x, n ≠ .identifier x)
    (h : n.RootSpeaks (V.before r) true) : n.RootSpeaks V true := by
  refine ⟨fun _ x hx => ?_, h.2⟩
  unfold identifierName? at hx
  split at hx
  · exact absurd rfl (hid _)
  · cases hx

/-- One step of renaming: the nodes below are renamed already. -/
theorem rename?_speaks (hr : ∀ e ∈ r.entries, V.name e.2) (hroot : n.RootSpeaks (V.before r) true)
    (hparts : n.PartsSpeak V true) : ((r.rename? n).getD n).Speaks V true := by
  unfold rename?
  split
  · exact speaks_identifier.2 fun _ => apply_name hr (hroot.1 rfl _ rfl)
  · rename_i hid
    have hn : n.Speaks V true := speaks_iff.2 ⟨rootSpeaks_of_not_identifier hid hroot, hparts⟩
    cases hc : r.collapse? n with
    | none => exact hn
    | some n' => exact collapse?_speaks hc hn

/-- Renaming all identifiers leaves no variable that has a new name. -/
theorem sweep_speaks (hr : ∀ e ∈ r.entries, V.name e.2) (hn : n.Speaks (V.before r) true) :
    (r.sweep n).Speaks V true := by
  have ⟨hroot, hparts⟩ := speaks_iff.1 hn
  unfold sweep
  split
  · rename_i hempty
    refine hn.mono (fun x hx => hx.resolve_right fun hhas => ?_) fun t ht => ht
    rw [has, get?, List.isEmpty_iff.1 hempty] at hhas
    cases hhas
  · split
    · exact speaks_identifier.2 fun _ => apply_name hr (hroot.1 rfl _ rfl)
    · rename_i hid
      exact speaks_replaceBelow (W := V.before r) (fun _ => id) (fun _ _ => rename?_speaks hr)
        (rootSpeaks_of_not_identifier hid hroot) hparts

end Renaming

/-! ## Rebuilding a node -/

/-- A free name is reserved for an import. -/
def PassState.ImportsAs (s s' : PassState) (x : Text) : Prop :=
  ∃ i ∈ s'.imported, i ∉ s.imported ∧ i.name = x ∧ i.binding ≠ x

/-- Where this happens in a part of a visit, it happens in the whole visit. -/
theorem PassState.ImportsAs.narrow {s s₁ s₂ s' : PassState} {x : Text} (h : s.ImportsAs s' x)
    (h₁ : s.Grows s₁) (h₂ : s₂.Grows s') (hused : x ∈ s₂.names.used) (hfree : x ∉ s₁.names.used) :
    s₁.ImportsAs s₂ x := by
  obtain ⟨i, hi, hnew, rfl, hown⟩ := h
  refine ⟨i, ?_, fun hi₁ => ?_, rfl, hown⟩
  · exact (h₂.loaded i hi).resolve_right fun ⟨_, h⟩ => h.elim hown fun hfree => hfree hused
  · exact hfree (((h₁.loaded i hi₁).resolve_left hnew).1)

/-- A vocabulary that a visit admits: it has the new names of variables, the
    names that are reserved in the visit, but for imports, and, of each markup
    call in the vocabulary, the texts of its tags. -/
structure Vocabulary.Admits (V : Vocabulary) (s s' : PassState) : Prop where
  replaced : ∀ e ∈ s'.renames.entries, V.name e.2
  reserved : ∀ x ∈ s'.names.used, x ∉ s.names.used → ¬s.ImportsAs s' x → V.name x
  undefined : V.name "undefined"
  spelled : ∀ call ∈ s'.rebuilt, call.Speaks V true → call.Spells V.tag

/-- The names in use, and `undefined`. -/
def Vocabulary.inUse (s : PassState) : Vocabulary where
  name x := x ∈ s.names.used ∨ x = "undefined"
  tag _ := True

/-- What a visit admits, every part of it does. -/
theorem Vocabulary.Admits.narrow {V : Vocabulary} {s s₁ s₂ s' : PassState} (h : V.Admits s s')
    (h₁ : s.Grows s₁) (h₂ : s₂.Grows s') : V.Admits s₁ s₂ where
  replaced e he := h.replaced e (h₂.renames.subset he)
  reserved x hx hfree hnone := by
    refine h.reserved x (h₂.names hx) (fun hused => hfree (h₁.names hused)) fun himports => hnone ?_
    exact himports.narrow h₁ h₂ hx hfree
  undefined := h.undefined
  spelled call hcall := h.spelled call (h₂.rebuilt.subset hcall)

namespace Node

theorem unwrapIndirectCallee_mem_walk (n : Node) : n.unwrapIndirectCallee ∈ n.walk := by
  unfold unwrapIndirectCallee
  split
  · rename_i first second heq
    split
    · have hsecond : second ∈ (sequence [first, second]).walk :=
        mem_walk_of_mem_children (by simp [mem_children_iff, Field.list, Slot.nodes])
      exact walk_subset_of_mem_walk n.ungroup_mem_walk (heq ▸ hsecond)
    · exact n.mem_walk_self
  · exact n.mem_walk_self

/-- What stands for `!0` and `!1` is a literal. -/
theorem restoredBoolean?_eq_some {operator : Text} {argument n : Node}
    (h : restoredBoolean? operator argument = some n) :
    ∃ value spelling, n = literal value spelling := by
  unfold restoredBoolean? at h
  split at h
  · split at h
    · split at h
      · exact ⟨_, _, (Option.some.inj h).symm⟩
      · split at h <;> cases h
        exact ⟨_, _, rfl⟩
    · cases h
  · cases h

end Node

namespace Surroundings

variable {e : Surroundings} {s s' : PassState} {n : Node} {accepts : Bool}

/-- What may stand for a node once those below are visited, elements apart. -/
inductive Tidies (r : Renaming) : Node → Node → Prop
  | same {n : Node} (hid : ∀ x, n ≠ .identifier x) : Tidies r n n
  | renamed (x : Text) : Tidies r (.identifier x) (.identifier (r.apply x))
  /-- `a` stands for `a.default` if `a` is renamed. -/
  | collapsed {x : Text} (property : Node) (computed o : Bool) (hx : r.isBinding x = true) :
    Tidies r (.member (.identifier x) property computed o) (.identifier x)
  | unwrapped (callee : Node) (arguments : List Node) (o : Bool) :
    Tidies r (.call callee arguments o) (.call callee.unwrapIndirectCallee arguments o)
  | restored (operator : Text) (argument : Node) (value : Value) (spelling : Option Text) :
    Tidies r (.unary operator argument) (.literal value spelling)

theorem tidies (e : Surroundings) (r : Renaming) (n : Node) : Tidies r n (e.tidied r n) := by
  unfold tidied
  split
  · exact .renamed _
  · rcases hcollapse : r.collapse? _ with _ | m
    · exact .same nofun
    · obtain ⟨x, property, computed, o, heq, rfl, hx⟩ := Renaming.collapse?_eq_some hcollapse
      cases heq
      exact .collapsed _ _ _ hx
  · split
    · exact .unwrapped ..
    · exact .same nofun
  · split
    · rcases hboolean : restoredBoolean? _ _ with _ | m
      · exact .same nofun
      · obtain ⟨value, spelling, rfl⟩ := restoredBoolean?_eq_some hboolean
        exact .restored ..
    · exact .same nofun
  · rename_i hid _ _ _
    exact .same hid

/-- What stands for a node keeps to a vocabulary with the new names. -/
theorem Tidies.speaks {V : Vocabulary} {r : Renaming} {n' : Node} (h : Tidies r n n')
    (hr : ∀ entry ∈ r.entries, V.name entry.2) (hroot : n.RootSpeaks (V.before r) true)
    (hparts : n.PartsSpeak V true) : n'.Speaks V true := by
  -- any node but an identifier keeps to the vocabulary before it is rebuilt
  have hkept (hid : ∀ x, n ≠ .identifier x) : n.Speaks V true :=
    speaks_iff.2 ⟨Renaming.rootSpeaks_of_not_identifier hid hroot, hparts⟩
  cases h with
  | same hid => exact hkept hid
  | renamed x => exact speaks_identifier.2 fun _ => Renaming.apply_name hr (hroot.1 rfl _ rfl)
  | collapsed property computed o hx => exact (speaks_member.1 (hkept nofun)).1
  | unwrapped callee arguments o =>
    obtain ⟨hcallee, harguments⟩ := speaks_call.1 (hkept nofun)
    exact speaks_call.2 ⟨hcallee.of_mem_walk callee.unwrapIndirectCallee_mem_walk, harguments⟩
  | restored => exact speaks_literal

/-- What stands for a node once the nodes below it are visited. -/
theorem settle_speaks {n' : Node} (h : e.settle accepts n s = .ok (n', s')) {V : Vocabulary}
    (hV : V.Admits s s') (hroot : n.RootSpeaks (V.before s.renames) true)
    (hparts : n.PartsSpeak V true) : n'.Speaks V true := by
  obtain ⟨rfl, rfl⟩ | hmarks := settle_cases h
  · exact (e.tidies _ n).speaks hV.replaced hroot hparts
  · obtain ⟨helement⟩ := hmarks
    have hn := speaks_iff.2 ⟨Renaming.rootSpeaks_of_not_identifier (by nofun) hroot, hparts⟩
    exact Dialect.element?_speaks helement hn
      (hV.spelled _ (List.mem_append_right _ (List.mem_singleton_self _)) hn)

/-- The statements for a declarator that holds a class keep to the vocabulary of
    the declarator. -/
theorem ClassAt.speak {kind : VariableKind} {inList alone : Bool} {d : Node} {ss : List Node}
    (h : e.ClassAt kind inList alone d s (some ss) s') {V : Vocabulary} (hV : V.Admits s s')
    (hd : d.Speaks V true) : ∀ m ∈ ss, m.Speaks V true := by
  cases h with
  | @rebuilt f _ name _ _ _ hclasses hf hname hc hss hplace =>
    have hname : name = f.className ∨ V.name name := by
      obtain ⟨rfl, -⟩ | ⟨-, -, rfl, rfl⟩ := nameClass_cases hname
      · exact .inl rfl
      · refine .inr (hV.reserved _ (Names.mem_insert.2 (.inr rfl)) (s.names.fresh_not_mem _) ?_)
        rintro ⟨i, hi, hnew, -⟩
        exact hnew hi
    exact Factory.statements_speak hd hV.undefined hf hname hc hss

end Surroundings

/-! ## Visits -/

namespace Visit

variable {e : Surroundings} {s s' : PassState}

/-- A visit takes steps of the pass, and what it leaves keeps to every
    vocabulary that it admits. -/
def Speaking : Law := fun _ n s ns s' =>
  s.Reaches s' ∧ ∀ V : Vocabulary, V.Admits s s' → n.Speaks (V.before s.renames) true →
    ∀ n' ∈ ns, n'.Speaks V true

/-- What comes from a node between two states keeps to what the states admit. -/
theorem Origin.speaks {n n' : Node} (h : Origin Speaking s s' n n') {V : Vocabulary}
    (hV : V.Admits s s') (hn : n.Speaks (V.before s.renames) true) : n'.Speaks V true := by
  obtain ⟨inList, s₁, ns, s₂, h₁, ⟨-, hspeak⟩, h₂, hn'⟩ := h
  exact hspeak V (hV.narrow h₁.grows h₂.grows)
    (Renaming.speaks_before_mono h₁.grows.renames hn) n' hn'

/-- A statement in place of a declaration speaks as the declarators do. -/
theorem FromDeclaration.speaks {kind : VariableKind} {inList : Bool} {ds : List Node} {m : Node}
    (h : FromDeclaration Speaking e kind inList s s' [] ds m) {V : Vocabulary} (hV : V.Admits s s')
    (hds : ∀ d ∈ ds, d.Speaks (V.before s.renames) true) : m.Speaks V true := by
  cases h with
  | declared h =>
    refine speaks_varDecl.2 fun d hd => ?_
    obtain ⟨n, hn, horigin, -⟩ := (h d hd).resolve_left nofun
    exact horigin.speaks hV (hds n hn)
  | @brought n d _ _ _ s₀ s₁ s₂ hn _ h₀ hd hclass h₂ hm =>
    have horigin : Origin Speaking s s₁ n d :=
      ⟨false, s₀, [d], s₁, h₀, hd, .refl, List.mem_singleton_self _⟩
    have hV₁ := hV.narrow (.refl s) (hclass.reaches.grows.trans h₂.grows)
    exact hclass.speak (hV.narrow (h₀.grows.trans hd.1.grows) h₂.grows)
      (horigin.speaks hV₁ (hds n hn)) _ hm

/-- The visit of a tree takes steps of the pass, and keeps to every vocabulary
    that it admits. -/
theorem ofNode_visits (e : Surroundings) (n : Node) : (ofNode e n).Obeys Speaking n := by
  refine ofNode_obeys ?_ ?_ ?_ n
  · intro n inList accepts s s₁ s' slots n' hn hfields hsettle
    have hreach := (hfields.origin And.left).1
    have hsettled := Surroundings.settle_reaches hsettle
    refine ⟨hreach.trans hsettled, fun V hV hspeaks m hm => List.mem_singleton.1 hm ▸ ?_⟩
    have ⟨hroot, hparts⟩ := speaks_iff.1 hspeaks
    refine Surroundings.settle_speaks hsettle (hV.narrow hreach.grows (.refl _))
      (rootSpeaks_withSlots.2 ?_) ?_
    · exact (speaks_iff.1 (Renaming.speaks_before_mono hreach.grows.renames hspeaks)).1
    · intro f hf c' hc'
      obtain ⟨g, hg, hw, ⟨hkept, hc⟩ | ⟨hwalked, c, hc, horigin⟩⟩ :=
        hfields.withSlots_origin And.left hf hc'
      · -- what is not walked is as it was
        rw [hw, hkept]
        exact ⟨nofun, (hparts g hg c' hc).2⟩
      · rw [hw, hwalked]
        exact horigin.speaks (hV.narrow (.refl _) hsettled.grows) (hwalked ▸ hparts g hg c hc)
  · intro kind inList s
    exact ⟨.refl, fun V _ _ m hm => List.mem_singleton.1 hm ▸ speaks_varDecl.2 nofun⟩
  · intro kind inList ds ss s s' _ hin
    obtain ⟨hreach, hfrom⟩ := hin.origin And.left
    exact ⟨hreach, fun V hV hn m hm => (hfrom m hm).speaks hV (speaks_varDecl.1 hn)⟩

/-- Once a node is visited, all its names but `undefined` are in use. -/
theorem Speaking.inUse {inList : Bool} {n : Node} {ns : List Node} (h : Speaking inList n s ns s')
    {names : List Text} (hs : s.Sound names) (hn : n.names ⊆ names) :
    ∀ n' ∈ ns, n'.Speaks (.inUse s') true := by
  obtain ⟨hreach, hspeaks⟩ := h
  refine hspeaks _ ⟨fun entry hentry => ?_, fun x hx _ _ => .inl hx, .inr rfl,
    fun _ _ _ _ _ _ _ => trivial⟩ ⟨fun _ x hx => ?_, fun _ _ => trivial⟩
  · exact .inl ((hreach.sound hs).replaced entry hentry)
  · exact .inl (.inl (hreach.grows.names (hs.reserved (hn hx))))

end Visit

end Resugar
