import Resugar.Proofs.Pass.Run

/-!
# Markup in the outcome of a pass

An element that a pass makes can be printed as it is: it closes itself exactly
if nothing stands between its tags, no attribute is named `children`, and no
text in it needs an escape (`Node.IsSound`). After it is made it may come into
another element, into a class or into an export, and names in it may be
replaced. All this keeps what holds throughout a tree, if it lasts (`Lasting`).
-/

namespace Resugar

open Node List

variable {p : Node → Prop} {n : Node}

/-! ## Renaming -/

namespace Renaming

variable {r : Renaming}

/-- Names take the place of names and of members. -/
theorem rename?_holds {n' : Node} (h : r.rename? n = some n') :
    n.isForeign = false ∧ n'.Holds p := by
  unfold rename? at h
  split at h
  · cases h
    exact ⟨rfl, holds_identifier⟩
  · obtain ⟨x, property, computed, o, rfl, rfl, -⟩ := collapse?_eq_some h
    exact ⟨rfl, holds_identifier⟩

theorem sweep_holds (hp : Stable p) (h : n.Holds p) : (r.sweep n).Holds p := by
  unfold sweep
  split
  · exact h
  · split
    · exact holds_identifier
    · exact h.replaceBelow hp fun _ m m' hm' =>
        ⟨(rename?_holds (p := p) hm').1, fun _ => (rename?_holds hm').2⟩

end Renaming

/-! ## Rebuilding a node -/

namespace Surroundings

variable {e : Surroundings} {s s' : PassState}

theorem Tidies.holds {r : Renaming} {n' : Node} (h : Tidies r n n') (hn : n.Holds p) :
    n'.Holds p := by
  cases h with
  | same => exact hn
  | renamed x => exact holds_identifier
  | collapsed property computed o hx => exact holds_identifier
  | unwrapped callee arguments o =>
    obtain ⟨hcallee, harguments⟩ := (holds_compositional p).call.1 hn
    exact (holds_compositional p).call.2
      ⟨hcallee.of_mem_walk callee.unwrapIndirectCallee_mem_walk, harguments⟩
  | restored => exact holds_literal

theorem settle_holds (hp : Lasting p) {accepts : Bool} {n' : Node}
    (h : e.settle accepts n s = .ok (n', s')) (hn : n.Holds p) : n'.Holds p := by
  obtain ⟨rfl, rfl⟩ | hmarks := settle_cases h
  · exact (e.tidies _ n).holds hn
  · obtain ⟨helement⟩ := hmarks
    exact Dialect.element?_holds hp helement hn

/-- So does a class, which is made of parts of its factory. -/
theorem ClassAt.hold (hp : Stable p) {kind : VariableKind} {inList alone : Bool} {d : Node}
    {ss : List Node} (h : e.ClassAt kind inList alone d s (some ss) s') (hd : d.Holds p) :
    ∀ m ∈ ss, m.Holds p := by
  cases h with
  | rebuilt hclasses hf hname hc hss => exact Factory.statements_hold hp hd hf hc hss

end Surroundings

/-! ## Visits -/

namespace Visit

variable {e : Surroundings} {s s' : PassState}

/-- A node has a property whatever stands below it. -/
def Firm (p : Node → Prop) (n : Node) : Prop :=
  p n ∧ ∀ slots, p (n.withSlots slots)

/-- What holds firmly throughout a tree holds throughout what is left. -/
def Holding (p : Node → Prop) : Law := fun _ n s ns s' =>
  s.Reaches s' ∧ (n.Holds (Firm p) → ∀ n' ∈ ns, n'.Holds p)

/-- What holds firmly throughout a node holds throughout what comes from it. -/
theorem Origin.holds {n' : Node} (h : Origin (Holding p) s s' n n') (hn : n.Holds (Firm p)) :
    n'.Holds p := by
  obtain ⟨inList, s₁, ns, s₂, -, ⟨-, hholds⟩, -, hn'⟩ := h
  exact hholds hn n' hn'

/-- What holds firmly throughout a node still does, its fields visited. -/
theorem InFields.holds {slots : List (Slot Node)} (h : InFields (Holding p) n.fields s slots s')
    (hn : n.Holds (Firm p)) : (n.withSlots slots).Holds p := by
  obtain ⟨hroot, hparts⟩ := holds_iff.1 hn
  refine holds_iff.2 ⟨fun hforeign => ?_, fun c hc => ?_⟩
  · rw [withSlots, isForeign_setSlots] at hforeign
    exact (hroot hforeign).2 slots
  · obtain ⟨f, hf, hc⟩ := mem_flatMap.1 hc
    obtain ⟨g, hg, -, ⟨-, hc⟩ | ⟨-, c₀, hc₀, horigin⟩⟩ := h.withSlots_origin And.left hf hc
    · exact (hparts c (mem_parts hg hc)).mono fun _ => And.left
    · exact horigin.holds (hparts c₀ (mem_parts hg hc₀))

/-- What holds firmly throughout a declaration holds in what replaces it. -/
theorem FromDeclaration.holds (hp : Stable p) {kind : VariableKind} {inList : Bool} {ds : List Node}
    {m : Node} (h : FromDeclaration (Holding p) e kind inList s s' [] ds m)
    (hds : ∀ d ∈ ds, d.Holds (Firm p)) : m.Holds p := by
  cases h with
  | declared h =>
    refine (holds_compositional p).varDecl.2 fun d hd => ?_
    obtain ⟨n, hn, horigin, -⟩ := (h d hd).resolve_left nofun
    exact horigin.holds (hds n hn)
  | brought hn hdeclarator h₀ hd hclass h₂ hm =>
    exact hclass.hold hp (hd.2 (hds _ hn) _ (mem_singleton_self _)) _ hm

/-- Visits keep what holds firmly throughout a tree. -/
theorem ofNode_holds (hp : Lasting p) (e : Surroundings) (n : Node) :
    (ofNode e n).Obeys (Holding p) n := by
  refine ofNode_obeys ?_ ?_ ?_ n
  · intro n inList accepts s s₁ s' slots n' _ hfields hsettle
    refine ⟨(hfields.origin And.left).1.trans
      (Surroundings.settle_reaches hsettle), fun hn m hm => ?_⟩
    rw [mem_singleton.1 hm]
    exact Surroundings.settle_holds hp hsettle (hfields.holds hn)
  · intro kind inList s
    exact ⟨.refl, fun hn m hm => mem_singleton.1 hm ▸ hn.mono fun _ => And.left⟩
  · intro kind inList ds ss s s' _ hin
    obtain ⟨hreach, hfrom⟩ := hin.origin And.left
    refine ⟨hreach, fun hn m hm => (hfrom m hm).holds hp.toStable ?_⟩
    exact (holds_compositional (Firm p)).varDecl.1 hn

end Visit

/-! ## Runs -/

section

-- what holds of all imports and exports, and lasts
variable (hp : Lasting p) (hitem : ∀ n, n.isModuleItem = true → p n)

include hitem in
/-- A module item has what the nodes below it have. -/
theorem Node.holds_of_isModuleItem (hn : n.isModuleItem = true)
    (hparts : ∀ c ∈ n.parts, c.Holds p) : n.Holds p :=
  holds_iff.2 ⟨fun _ => hitem n hn, hparts⟩

include hitem in
theorem Node.exportBinding_holds (key binding : Text) : (exportBinding key binding).Holds p := by
  unfold exportBinding
  split
  · exact holds_of_isModuleItem hitem rfl (forall_mem_singleton.2 holds_identifier)
  · refine holds_of_isModuleItem hitem rfl (forall_mem_singleton.2 ?_)
    refine holds_of_isModuleItem hitem rfl
      (forall_mem_cons.2 ⟨holds_identifier, forall_mem_singleton.2 ?_⟩)
    split
    · exact holds_identifier
    · exact holds_literal

include hitem in
theorem Node.exportValue_holds (key : Text) (hn : n.Holds p) : (exportValue key n).Holds p := by
  unfold exportValue
  split
  · exact holds_of_isModuleItem hitem rfl (forall_mem_singleton.2 hn)
  · refine holds_of_isModuleItem hitem rfl (forall_mem_singleton.2 ?_)
    refine (holds_compositional p).varDecl.2 (forall_mem_singleton.2 ?_)
    exact (holds_compositional p).declarator.2
      ⟨holds_identifier, fun m hm => Option.some.inj hm ▸ hn⟩

include hitem in
theorem Import.declaration_holds (i : Import) : i.declaration.Holds p := by
  have hspecifier (m : Node) (hm : m.isModuleItem = true)
      (hparts : m.parts = [.identifier i.name]) : m.Holds p :=
    holds_of_isModuleItem hitem hm (hparts ▸ forall_mem_singleton.2 holds_identifier)
  refine holds_of_isModuleItem hitem rfl
    (forall_mem_cons.2 ⟨?_, forall_mem_singleton.2 holds_literal⟩)
  cases i.kind <;> exact hspecifier _ rfl rfl

namespace Pass

variable {e : Surroundings} {s s' : PassState} {done rest : List Node} {stmt : Node}

include hp in
theorem movedValue_holds {r : Renaming} {init : Node} (h : init.Holds p) :
    (movedValue r init).Holds p := by
  have hswept := r.sweep_holds hp.toStable h
  unfold movedValue
  rcases hr : r.rename? (r.sweep init) with _ | m
  · exact hswept
  · exact (Renaming.rename?_holds hr).2

include hp hitem

/-- An export keeps what holds throughout the statements before it. -/
theorem Exported.hold {key binding : Text} {done' : List Node} {declaration : Node}
    (h : Exported s done stmt rest key binding done' declaration s')
    (hdone : ∀ n ∈ done, n.Holds p) : ∀ n ∈ done' ++ [declaration], n.Holds p := by
  cases h with
  | bound exported =>
    exact forall_mem_append.2
      ⟨hdone, forall_mem_singleton.2 (exportBinding_holds hitem key binding)⟩
  | @moved remains init h exported =>
    obtain ⟨hdeclarator, hremains⟩ := h.forall_mem (holds_compositional p).varDecl hdone
    have hinit := ((holds_compositional p).declarator.1 hdeclarator).2 init rfl
    refine forall_mem_append.2 ⟨hremains, forall_mem_singleton.2 ?_⟩
    exact exportValue_holds hitem key (movedValue_holds hp hinit)

namespace Stage

variable {q r : Stage}

/-- One visit adds only statements in which the property holds. -/
theorem Advances.hold (h : Advances e q r) (hdone : ∀ n ∈ q.done, n.Holds p)
    (hrest : ∀ n ∈ q.rest, n.Holds (Visit.Firm p)) : ∀ n ∈ r.done, n.Holds p := by
  obtain @⟨done, done', stmt, rest, s, s', h⟩ := h
  obtain ⟨ns, s₁, hns, hcases⟩ := step_cases h
  obtain ⟨rfl, rfl⟩ | ⟨visited, key, binding, remains, declaration, rfl, -, rfl, hexported⟩ :=
    hcases
  · have hvisit := (Visit.ofNode_holds hp e stmt).spliced hns
    exact forall_mem_append.2 ⟨hdone, hvisit.2 (hrest stmt mem_cons_self)⟩
  · exact hexported.hold hp hitem hdone

/-- What holds firmly throughout some statements holds throughout those that a
    run leaves of them. -/
theorem Leads.hold (h : Leads e q r) (hdone : ∀ n ∈ q.done, n.Holds p)
    (hrest : ∀ n ∈ q.rest, n.Holds (Visit.Firm p)) : ∀ n ∈ r.done, n.Holds p := by
  induction h with
  | refl => exact hdone
  | tail hlead hstep ih =>
    exact hstep.hold hp hitem ih fun n hn => hrest n (Leads.rest_subset hlead hn)

end Stage

omit hitem in
/-- The renaming at the end keeps the property. -/
theorem renamed_hold {body : List Node} (hbody : ∀ n ∈ body, n.Holds p) :
    ∀ n ∈ renamed e s body, n.Holds p := by
  intro n hn
  have hswept := s.renames.sweep_holds hp.toStable ((holds_compositional p).program.2 hbody)
  rw [Renaming.sweep_program] at hswept
  exact (holds_compositional p).program.1 hswept n (renamed_subset e s body hn)

end Pass

include hp hitem in
/-- What holds firmly throughout a program holds in the outcome. -/
theorem Outcome.Ran.holds {o : Outcome} {program : Node} {body : List Node} (h : o.Ran program body)
    (hprogram : program.Holds (Visit.Firm p)) : o.program.Holds p := by
  have hwalked := Pass.Stage.Leads.hold hp hitem h.leads nofun
    (statements_inherit (holds_compositional _) h.statements hprogram)
  rw [h.program_eq]
  refine withStatements_inherits (holds_compositional p) h.statements fun n hn => ?_
  rcases Pass.mem_splice.1 hn with hn | hn
  · obtain ⟨i, -, rfl⟩ := mem_map.1 hn
    exact i.declaration_holds hitem
  · exact Pass.renamed_hold hp hwalked n ((Pass.mem_dropHelpers h.drops).1 hn)

end

/-! ## Sound markup -/

/-- Markup as it is written: an element closes itself exactly if it has no
    children, what stands in its tag and between its tags can stand there, no
    attribute is named `children`, and no text needs an escape. -/
def Node.IsSound : Node → Prop
  | element _ attributes children selfClosing =>
    (selfClosing = true ↔ children = []) ∧ (∀ a ∈ attributes, a.isTagAttribute = true) ∧
      ∀ c ∈ children, c.isTagChild = true
  | namedAttribute name _ => name ≠ Text.ofString "children"
  | markupText value => value ≠ [] ∧ value.escapeMarkup = value
  | _ => True

/-- Nodes in place of those in a tag, or between tags, can stand there. -/
theorem Node.forall_of_forall₂_like {P : Node → Bool}
    (hP : ∀ {n n' : Node}, Like n n' → P n = true → P n' = true) {ns ns' : List Node}
    (h : List.Forall₂ Like ns ns') (hns : ∀ n ∈ ns, P n = true) : ∀ n ∈ ns', P n = true := by
  intro n' hn'
  obtain ⟨n, hn, hlike⟩ := exists_of_forall₂ h hn'
  exact hP hlike (hns n hn)

theorem Node.isMarkup_setSlots (s : Nat → Slot Node) (n : Node) :
    (n.setSlots s).isMarkup = n.isMarkup := by
  cases n <;> rfl

theorem Node.isSound_of_not_isMarkup (h : n.isMarkup = false) : n.IsSound := by
  cases n <;> first | exact trivial | cases h

/-- Markup is sound when it is made, and stays so. -/
theorem lasting_isSound : Lasting Node.IsSound where
  moduleItem {n} s hn _ := by cases n <;> first | exact trivial | cases hn
  markup {n s} hn hs h := by
    cases n with
    | element name attributes children selfClosing =>
      obtain ⟨hclosing, hattributes, hchildren⟩ := h
      have hinTag : List.Forall₂ Like attributes (s 0).nodes := by
        simpa [Field.list, Slot.nodes] using hs 0 _ rfl
      have hbetween : List.Forall₂ Like children (s 1).nodes := by
        simpa [Field.list, Slot.nodes] using hs 1 _ rfl
      refine ⟨hclosing.trans ?_, forall_of_forall₂_like Like.inTag hinTag hattributes,
        forall_of_forall₂_like Like.betweenTags hbetween hchildren⟩
      rw [← length_eq_zero_iff, hbetween.length_eq, length_eq_zero_iff]
    | namedAttribute name value => exact h
    | markupText value => exact h
    | spreadAttribute argument => exact trivial
    | container expression => exact trivial
    | _ => cases hn
  text h := Text.escapeMarkup_of_isMarkupText h
  container _ := trivial
  named _ h := h
  spread _ := trivial
  element _ _ _ hattributes hchildren := ⟨List.isEmpty_iff, hattributes, hchildren⟩

/-- In the outcome of a program without markup, all markup is sound, however
    deep it stands. -/
theorem markup_isSound {config : Config} {program : Node} {o : Outcome}
    (h : reconstruct config program = .ok o)
    (hprogram : ∀ n ∈ program.descendants, n.isMarkup = false) :
    ∀ n ∈ o.program.descendants, n.IsSound := by
  obtain ⟨body, hran⟩ := reconstruct_ran h
  have hitem (n : Node) (hn : n.isModuleItem = true) : n.IsSound := by
    cases n <;> first | exact trivial | cases hn
  have hfirm : program.Holds (Visit.Firm IsSound) := fun n hn _ => by
    have hmarkup := hprogram n hn
    refine ⟨isSound_of_not_isMarkup hmarkup, fun slots => isSound_of_not_isMarkup ?_⟩
    exact (isMarkup_setSlots _ n).trans hmarkup
  intro n hn
  rcases hmarkup : n.isMarkup with _ | _
  · exact isSound_of_not_isMarkup hmarkup
  · exact hran.holds lasting_isSound hitem hfirm n hn (by rw [isForeign, hmarkup, Bool.true_or])

/-- `React.createElement(tag, …)` -/
def creating (tag : Text) (arguments : List Node) : Node :=
  .call (.member (.identifier "React") (.identifier "createElement") false false)
    (.literal (.string tag) none :: arguments) false

/-- `var a = React.createElement("p", { id: x }, "hello",
    React.createElement("br", null)); exports.a = a;` -/
def exportedParagraph : Node :=
  .program [declaring "a" (creating "p"
    [.object [.entry (.identifier "id") (.identifier "x") .init false false false],
    .literal (.string "hello") none, creating "br" [.literal .null none]]), exporting "a"]

/-- An exported element with an attribute, a text and an element in it. -/
theorem markup_isSound_exportedParagraph :
    ∃ o, reconstruct {} exportedParagraph = .ok o ∧
      (∀ n ∈ exportedParagraph.descendants, n.isMarkup = false) ∧
      (o.program.descendants.filter isMarkup).length = 5 ∧
      ∀ n ∈ o.program.descendants, n.IsSound := by
  have hprogram : ∀ n ∈ exportedParagraph.descendants, n.isMarkup = false := by decide +kernel
  obtain ⟨o, ho, hmarkup⟩ : ∃ o, reconstruct {} exportedParagraph = .ok o ∧
      (o.program.descendants.filter isMarkup).length = 5 := exists_outcome (by decide +kernel)
  exact ⟨o, ho, hprogram, hmarkup, markup_isSound ho hprogram⟩

end Resugar
