import Resugar.Proofs.Class.Hygiene
import Resugar.Proofs.Pass.Run

/-!
# Well-formed programs

Is a program that can be read still one after a pass? A pass replaces nodes all
over the program, nearly always by nodes that can stand in the same places
(`Node.WellFormed`): names by names, calls by elements. The exceptions are in
classes:

* a rebuilt class leaves its factory, and expressions take the place of the
  names of the factory, also where such a name is bound again
  (`SortedClass.isHygienic`);
* a class takes the place of a declaration in the head of a loop, if that has an
  initializer.

Hygiene is needed where it is asked for (`SortedClass.NeedsHygiene`): a part of
a class that lacks it is not well formed outside of the factory. The program may
be well formed again in the end, as when `x.default` is bound in a method, and
`x` takes its place later.
-/

namespace Resugar

open Node List Rule

/-- The rule for well-formed programs in which no declarator in the head of a
    loop has an initializer. -/
abbrev Rule.bareHeads : Rule := { initialized := false }

namespace Rule

theorem bareHeads_le : bareHeads.Le wellFormed :=
  ⟨⟨fun _ => id, fun _ => rfl, id⟩, fun _ => id, fun _ => id, fun _ => id⟩

/-- In a well-formed program, a name can take the place of any other one. -/
theorem admits_identifier {role : Role} {x : Text}
    (h : wellFormed.admits role (identifier x) = true) (y : Text) :
    wellFormed.admits role (identifier y) = true := by
  cases role with
  | pattern use => cases use <;> exact h
  | _ => exact h

end Rule

/-- The parts of the class that a declarator becomes. -/
def Sighting.sortedClass? (x : Sighting) : Option SortedClass :=
  match x.verdict with
  | .rebuilt f className _ => (f.sorted? className).toOption.join
  | _ => none

/-- Whether the class that a declarator becomes is hygienic. -/
def Sighting.isHygienic (x : Sighting) : Bool :=
  x.sortedClass?.all SortedClass.isHygienic

/-- What hygiene asks for is needed in every class that is seen. -/
theorem Sighting.needsHygiene {x : Sighting} {p : SortedClass} (h : x.sortedClass? = some p) :
    p.NeedsHygiene := by
  unfold sortedClass? at h
  split at h
  · exact Factory.needsHygiene (eq_ok_of_join h)
  · cases h

/-- A declarator without an initializer. -/
def Node.isBare : Node → Bool
  | declarator _ none => true
  | _ => false

variable {n : Node} {role : Role}

/-- Where heads of loops have no initializers, a declarator there has none. -/
theorem Node.isBare_of_fits (h : n.Fits .bareHeads .headDeclarator) (hn : n.isDeclarator = true) :
    n.isBare = true := by
  cases n with
  | declarator id init =>
    rcases init with _ | init
    · rfl
    · have hinit := fieldsFit_iff.1 (fits_iff.1 h).2 1 _ rfl init (mem_singleton_self _)
      have hadmits := (fits_iff.1 hinit).1
      simp [Role.below, Role.fields, admits, Field.single] at hadmits
  | _ => cases hn

/-! ## Renaming -/

namespace Renaming

variable {r : Renaming}

/-- `a` may stand wherever `a.default` may. -/
theorem collapse?_wellFormed {n' : Node} (h : r.collapse? n = some n')
    (hroot : wellFormed.admits role n = true) (hrole : role ≠ .unwalked) :
    n'.Fits .wellFormed role := by
  obtain ⟨x, property, computed, o, rfl, rfl, -⟩ := collapse?_eq_some h
  exact fits_identifier_of_member wellFormed_simple.even hroot hrole rfl rfl

/-- One step of renaming: the nodes below are renamed already. -/
theorem rename?_wellFormed (hrole : role ≠ .unwalked) (hroot : wellFormed.admits role n = true)
    (hfields : n.FieldsFit .wellFormed role) : ((r.rename? n).getD n).Fits .wellFormed role := by
  unfold rename?
  split
  · exact fits_identifier_iff.2 (admits_identifier hroot _)
  · rcases hc : r.collapse? n with _ | n'
    · exact fits_iff.2 ⟨hroot, hfields⟩
    · exact collapse?_wellFormed hc hroot hrole

/-- A renaming keeps a tree well formed. -/
theorem sweep_wellFormed (h : n.Fits .wellFormed role) (hrole : role ≠ .unwalked) :
    (r.sweep n).Fits .wellFormed role := by
  obtain ⟨hroot, hfields⟩ := fits_iff.1 h
  unfold sweep
  split
  · exact h
  · split
    · exact fits_identifier_iff.2 (admits_identifier hroot _)
    · exact fits_replaceBelow (fun _ => id) (fun _ _ _ => rename?_wellFormed) hroot hfields hrole

end Renaming

/-! ## Rebuilding a node -/

namespace Surroundings

variable {e : Surroundings} {s s' : PassState}

/-- So does tidying a node. -/
theorem Tidies.wellFormed {r : Renaming} {n' : Node} (h : Tidies r n n') (hrole : role ≠ .unwalked)
    (hn : n.Fits .wellFormed role) : n'.Fits .wellFormed role := by
  have hroot := (fits_iff.1 hn).1
  have heven := wellFormed_simple.even
  cases h with
  | same => exact hn
  | renamed x => exact fits_identifier_iff.2 (admits_identifier hroot _)
  | collapsed property computed o hx => exact fits_identifier_of_member heven hroot hrole rfl rfl
  | unwrapped callee arguments o =>
    obtain ⟨hcallee, harguments⟩ := (compositional _).call.1 (hn.any hrole)
    refine Fits.replace ?_ heven rfl (fun _ => rfl) hroot hrole
    exact (compositional _).call.2 ⟨hcallee.of_mem_walk Role.noConfusion
      callee.unwrapIndirectCallee_mem_walk, harguments⟩
  | restored => exact fits_literal.replace heven rfl (fun _ => rfl) hroot hrole

/-- So does an element, which may stand wherever a call may. -/
theorem settle_wellFormed {accepts : Bool} {n' : Node} (h : e.settle accepts n s = .ok (n', s'))
    (hrole : role ≠ .unwalked) (hn : n.Fits .wellFormed role) : n'.Fits .wellFormed role := by
  obtain ⟨rfl, rfl⟩ | hmarks := settle_cases h
  · exact (e.tidies _ n).wellFormed hrole hn
  · obtain ⟨helement⟩ := hmarks
    have hn' := Dialect.element?_fits helement (hn.any hrole) fun _ _ _ _ => rfl
    exact hn'.replace wellFormed_simple.even rfl (fun _ => rfl) (fits_iff.1 hn).1 hrole

/-- The statements for a declarator with a hygienic class are well formed. -/
theorem ClassAt.wellFormed {kind : VariableKind} {inList alone : Bool} {d : Node} {ss : List Node}
    (h : e.ClassAt kind inList alone d s (some ss) s')
    (hhygienic : ∀ x ∈ s'.seen, x.isHygienic = true) (hd : d.WellFormed) :
    ∀ m ∈ ss, m.WellFormed := by
  cases h with
  | @rebuilt f _ name _ c _ hclasses hf hname hc hss hplace =>
    have hsimple := wellFormed_simple
    have hfits := Factory.ofDeclarator?_inherits hsimple.hereditary hf hd
    have hnoted := hhygienic _ (mem_append_right _ (mem_singleton_self _))
    have hcfits : c.All wellFormed.fits :=
      Factory.rebuild_fits hsimple rfl hfits rfl hc fun _ sorted hsorted => by
      simpa [Sighting.isHygienic, Sighting.sortedClass?, hsorted, Except.toOption] using hnoted
    exact Factory.toStatements_inherit hsimple.hereditary hfits (fits_identifier.2 rfl) hcfits hss

/-- A declarator without an initializer holds no class. -/
theorem ClassAt.eq_none_of_isBare {kind : VariableKind} {inList alone : Bool} {d : Node}
    {o : Option (List Node)} (h : e.ClassAt kind inList alone d s o s') (hd : d.isBare = true) :
    o = none := by
  cases h with
  | rebuilt hclasses hf =>
    unfold isBare at hd
    split at hd
    · rw [Factory.ofDeclarator?] at hf
      · cases hf
      · nofun
    · cases hd
  | _ => rfl

end Surroundings

/-! ## Visits -/

namespace Visit

variable {e : Surroundings} {s s' : PassState}

/-- A visit leaves no initializer where there was none; and what it leaves can
    stand where the visited node stood, if all classes are hygienic and no head
    of a loop has an initializer. -/
def Forming : Law := fun _ n s ns s' =>
  s.Reaches s' ∧ (n.isBare = true → ∀ n' ∈ ns, n'.isBare = true) ∧
    ((∀ x ∈ s'.seen, x.isHygienic = true) → ∀ role, role ≠ .unwalked → n.Fits .bareHeads role →
      ∀ n' ∈ ns, n'.Fits .wellFormed role)

/-- What comes from a node can stand where the node stood. -/
theorem Origin.wellFormed {n' : Node} (h : Origin Forming s s' n n')
    (hhygienic : ∀ x ∈ s'.seen, x.isHygienic = true) (hrole : role ≠ .unwalked)
    (hn : n.Fits .bareHeads role) : n'.Fits .wellFormed role := by
  obtain ⟨inList, s₁, ns, s₂, -, ⟨-, -, hforming⟩, h₂, hn'⟩ := h
  exact hforming (fun x hx => hhygienic x (h₂.grows.seen.subset hx)) role hrole hn n' hn'

/-- What the fields of a node hold fits after the visits as it did before. -/
theorem InFields.wellFormed {slots : List (Slot Node)} (h : InFields Forming n.fields s slots s')
    (hhygienic : ∀ x ∈ s'.seen, x.isHygienic = true) (hrole : role ≠ .unwalked)
    (hn : n.FieldsFit .bareHeads role) : (n.withSlots slots).FieldsFit .wellFormed role := by
  have horigin := (h.origin And.left).2
  refine fieldsFit_withSlots (fun i g hg c hc => ?_) fun i g c hg hslot hnone => ?_
  · obtain ⟨slot, hslot, -, hkept, hwalked⟩ := horigin i g hg
    rw [getD_eq_getElem?_getD, hslot, Option.getD_some] at hc
    have hfit := fieldsFit_iff.1 hn i g hg
    rcases hw : g.walked with _ | _
    · rw [hw] at hfit
      exact (hfit c (hkept hw ▸ hc)).mono bareHeads_le
    · obtain ⟨c₀, hc₀, hfrom⟩ := hwalked hw c hc
      rw [hw] at hfit
      exact hfrom.wellFormed hhygienic (Role.below_ne_unwalked hrole n i) (hfit c₀ hc₀)
  · obtain ⟨slot, hgiven, hone, -⟩ := horigin i g hg
    rw [getD_eq_getElem?_getD, hgiven, Option.getD_some] at hnone
    exact absurd hnone (hone c hslot)

/-- The visit of a declarator without an initializer leaves such a one. -/
theorem InFields.isBare {R : Law} {slots : List (Slot Node)} (h : InFields R n.fields s slots s')
    (hn : n.isBare = true) : (n.withSlots slots).isBare = true := by
  unfold Node.isBare at hn
  split at hn
  · obtain _ | ⟨_, _, _ | ⟨_, ⟨⟩, _ | _⟩ | ⟨⟨⟩, _⟩⟩ | ⟨⟨⟩, _⟩ := h
    rfl
  · cases hn

/-- A statement in place of a declaration can stand where that stood. -/
theorem FromDeclaration.wellFormed {kind : VariableKind} {inList : Bool} {ds : List Node} {m : Node}
    (h : FromDeclaration Forming e kind inList s s' [] ds m)
    (hhygienic : ∀ x ∈ s'.seen, x.isHygienic = true) (hrole : role ≠ .unwalked)
    (hds : (Node.varDecl kind ds).Fits .bareHeads role) : m.Fits .wellFormed role := by
  have hroot := (fits_iff.1 (hds.mono bareHeads_le)).1
  have hbelow : ∀ d ∈ ds, d.Fits .bareHeads (role.below (.varDecl kind ds) 0 true) := by
    intro d hd
    exact fieldsFit_iff.1 (fits_iff.1 hds).2 0 _ rfl d (by simpa [Field.list, Slot.nodes] using hd)
  cases h with
  | @declared ds' h =>
    have hroot' : Rule.wellFormed.admits role (.varDecl kind ds') = true := by
      cases role with
      | pattern use => cases use <;> exact hroot
      | _ => exact hroot
    refine fits_iff.2 ⟨hroot', fieldsFit_iff.2 fun i f hf d hd => ?_⟩
    obtain rfl : i = 0 := by
      rcases i with _ | i
      · rfl
      · cases hf
    cases hf
    obtain ⟨n, hn, horigin, -⟩ :=
      (h d (by simpa [Field.list, Slot.nodes] using hd)).resolve_left not_mem_nil
    exact horigin.wellFormed hhygienic (Role.below_ne_unwalked hrole _ 0) (hbelow n hn)
  | @brought n d _ _ _ s₀ s₁ s₂ hn hdeclarator h₀ hd hclass h₂ hm =>
    have hhygienic₂ : ∀ x ∈ s₂.seen, x.isHygienic = true :=
      fun x hx => hhygienic x (h₂.grows.seen.subset hx)
    have horigin : Origin Forming s s₁ n d :=
      ⟨false, s₀, [d], s₁, h₀, hd, .refl, mem_singleton_self _⟩
    have hfits := horigin.wellFormed
      (fun x hx => hhygienic₂ x (hclass.reaches.grows.seen.subset hx))
      (Role.below_ne_unwalked hrole _ 0) (hbelow n hn)
    have hm := hclass.wellFormed hhygienic₂ (hfits.any (Role.below_ne_unwalked hrole _ 0)) _ hm
    refine hm.replace wellFormed_simple.even rfl (fun hhead => ?_) hroot hrole
    -- in the head of a loop, no declarator has an initializer
    subst hhead
    have hbare := isBare_of_fits (hbelow n hn) hdeclarator
    cases hclass.eq_none_of_isBare (hd.2.1 hbare d (mem_singleton_self _))

/-- Visits leave what can stand where the visited node stood. -/
theorem ofNode_forms (e : Surroundings) (n : Node) : (ofNode e n).Obeys Forming n := by
  refine ofNode_obeys ?_ ?_ ?_ n
  · intro n inList accepts s s₁ s' slots n' hn hfields hsettle
    have hsettled := Surroundings.settle_reaches hsettle
    refine ⟨(hfields.origin And.left).1.trans hsettled, fun hbare m hm => ?_,
      fun hhygienic role hrole hfits m hm => ?_⟩
    · have hbare := hfields.isBare hbare
      rw [mem_singleton.1 hm]
      obtain ⟨rfl, -⟩ | hmarks := Surroundings.settle_cases hsettle
      · unfold Node.isBare at hbare
        split at hbare
        · rename_i heq
          rw [heq]
          rfl
        · cases hbare
      · generalize n.withSlots slots = n₁ at hbare hmarks
        obtain ⟨-⟩ := hmarks
        cases hbare
    · rw [mem_singleton.1 hm]
      obtain ⟨hroot, hparts⟩ := fits_iff.1 hfits
      have hhygienic₁ : ∀ x ∈ s₁.seen, x.isHygienic = true :=
        fun x hx => hhygienic x (hsettled.grows.seen.subset hx)
      refine Surroundings.settle_wellFormed hsettle hrole
        (fits_iff.2 ⟨?_, hfields.wellFormed hhygienic₁ hrole hparts⟩)
      exact (admits_setSlots _ role _ n).trans (bareHeads_le.admits hroot)
  · intro kind inList s
    refine ⟨.refl, nofun, fun _ role _ hfits m hm => ?_⟩
    exact mem_singleton.1 hm ▸ hfits.mono bareHeads_le
  · intro kind inList ds ss s s' _ hin
    obtain ⟨hreach, hfrom⟩ := hin.origin And.left
    exact ⟨hreach, nofun, fun hhygienic role hrole hfits m hm =>
      (hfrom m hm).wellFormed hhygienic hrole hfits⟩

end Visit

/-! ## Runs -/

namespace Node

theorem exportBinding_wellFormed (key binding : Text) : (exportBinding key binding).WellFormed := by
  unfold exportBinding
  split
  · exact fits_exportDefault.2 (fits_identifier.2 rfl)
  · refine fits_exportNamed.2 ⟨nofun,
      forall_mem_singleton.2 (fits_exportName.2 ⟨fits_identifier.2 rfl, ?_⟩), nofun⟩
    split
    · exact fits_identifier_unwalked
    · exact fits_literal_unwalked

theorem exportValue_wellFormed (key : Text) (hn : n.WellFormed) :
    (exportValue key n).WellFormed := by
  unfold exportValue
  split
  · exact fits_exportDefault.2 hn
  · refine fits_exportNamed.2 ⟨fun d hd => ?_, nofun, nofun⟩
    rw [← Option.some.inj hd]
    refine (compositional _).varDecl.2 (forall_mem_singleton.2
      ((compositional _).declarator.2 ⟨fits_identifier_bound rfl rfl, fun m hm => ?_⟩))
    exact Option.some.inj hm ▸ hn

end Node

namespace Pass

variable {e : Surroundings} {s s' : PassState} {done rest : List Node} {stmt : Node}

theorem movedValue_wellFormed {r : Renaming} {init : Node} (h : init.WellFormed) :
    (movedValue r init).WellFormed := by
  obtain ⟨hroot, hfields⟩ := fits_iff.1 (Renaming.sweep_wellFormed (r := r) h Role.noConfusion)
  exact Renaming.rename?_wellFormed Role.noConfusion hroot hfields

/-- An export leaves well-formed statements. -/
theorem Exported.wellFormed {key binding : Text} {done' : List Node} {declaration : Node}
    (h : Exported s done stmt rest key binding done' declaration s')
    (hdone : ∀ n ∈ done, n.WellFormed) : ∀ n ∈ done' ++ [declaration], n.WellFormed := by
  cases h with
  | bound exported =>
    exact forall_mem_append.2
      ⟨hdone, forall_mem_singleton.2 (exportBinding_wellFormed key binding)⟩
  | @moved remains init h exported =>
    obtain ⟨hdeclarator, hremains⟩ := h.forall_mem (compositional _).varDecl hdone
    refine forall_mem_append.2 ⟨hremains, forall_mem_singleton.2 ?_⟩
    exact exportValue_wellFormed key
      (movedValue_wellFormed (((compositional _).declarator.1 hdeclarator).2 init rfl))

namespace Stage

variable {p q : Stage}

/-- One visit adds well-formed statements, if its classes are hygienic. -/
theorem Advances.wellFormed (h : Advances e p q)
    (hhygienic : ∀ x ∈ q.state.seen, x.isHygienic = true) (hdone : ∀ n ∈ p.done, n.WellFormed)
    (hrest : ∀ n ∈ p.rest, n.Fits .bareHeads .any) : ∀ n ∈ q.done, n.WellFormed := by
  obtain @⟨done, done', stmt, rest, s, s', h⟩ := h
  obtain ⟨ns, s₁, hns, hcases⟩ := step_cases h
  obtain ⟨-, -, hforming⟩ := (Visit.ofNode_forms e stmt).spliced hns
  obtain ⟨rfl, rfl⟩ | ⟨visited, key, binding, remains, declaration, rfl, -, rfl, hexported⟩ :=
    hcases
  · exact forall_mem_append.2
      ⟨hdone, hforming hhygienic .any Role.noConfusion (hrest stmt mem_cons_self)⟩
  · exact hexported.wellFormed hdone

/-- The statements that a run leaves are well formed. -/
theorem Leads.wellFormed (h : Leads e p q) (hhygienic : ∀ x ∈ q.state.seen, x.isHygienic = true)
    (hdone : ∀ n ∈ p.done, n.WellFormed) (hrest : ∀ n ∈ p.rest, n.Fits .bareHeads .any) :
    ∀ n ∈ q.done, n.WellFormed := by
  induction h with
  | refl => exact hdone
  | tail hlead hstep ih =>
    refine hstep.wellFormed hhygienic (ih fun x hx => ?_) fun n hn =>
      hrest n (Leads.rest_subset hlead hn)
    exact hhygienic x (hstep.grows.seen.subset hx)

end Stage

/-- The renaming at the end keeps statements well formed. -/
theorem renamed_wellFormed {body : List Node} (hbody : ∀ n ∈ body, n.WellFormed) :
    ∀ n ∈ renamed e s body, n.WellFormed := by
  intro n hn
  have hswept : (s.renames.sweep (program body)).WellFormed :=
    Renaming.sweep_wellFormed ((compositional _).program.2 hbody) Role.noConfusion
  rw [Renaming.sweep_program] at hswept
  exact (compositional _).program.1 hswept n (renamed_subset e s body hn)

end Pass

theorem Import.declaration_wellFormed (i : Import) : i.declaration.WellFormed := by
  unfold declaration
  cases i.kind <;> simp

/-! ## Programs -/

/-- A pass keeps a program well formed, if the head of no loop has an
    initializer, and if every class that it rebuilds is hygienic. Hygiene asks
    no more of a part of a class than the part needs to stay well formed itself;
    only what comes later can make up for it. -/
theorem wellFormed_of_hygienic {config : Config} {program : Node} {o : Outcome}
    (h : reconstruct config program = .ok o) (hprogram : program.Fits .bareHeads .any) :
    ((∀ x ∈ o.state.seen, x.isHygienic = true) → o.program.WellFormed) ∧
      ∀ x ∈ o.state.seen, ∀ p ∈ x.sortedClass?, p.NeedsHygiene := by
  refine ⟨fun hhygienic => ?_, fun _ _ _ hp => Sighting.needsHygiene hp⟩
  obtain ⟨body, hran⟩ := reconstruct_ran h
  have hwalked :=
    Pass.Stage.Leads.wellFormed hran.leads hhygienic nofun (statements_fit hran.statements hprogram)
  rw [hran.program_eq]
  refine withStatements_fits hran.statements fun n hn => ?_
  rcases Pass.mem_splice.1 hn with hn | hn
  · obtain ⟨i, -, rfl⟩ := mem_map.1 hn
    exact i.declaration_wellFormed
  · exact Pass.renamed_wellFormed hwalked n ((Pass.mem_dropHelpers hran.drops).1 hn)

/-- `function (_A) { function Dog() {} var _proto = Dog.prototype; …; return
    Dog; }(Animal.Base)` -/
def dogFactory (statements : List Node) : Node :=
  calledAtOnce ["_A"] ([namedFunction "Dog" [], prototypeOf "Dog"] ++ statements ++
    [.returnStmt (some (.identifier "Dog"))])
    [.member (.identifier "Animal") (.identifier "Base") false false]

/-- `_proto.m = function (param) { … };` -/
def protoMethod (param : Text) (body : List Node) : Node :=
  .exprStmt (.assignment "=" (.member (.identifier "_proto") (.identifier "m") false false)
    (.functionExpr none [.identifier param] (.block body) false false))

/-- `var Dog = function (_A) { …; _proto.m = function (x) { var self = this;
    return self.bark(x, _A); }; … }(Animal.Base);` -/
def aliasedDog : Node :=
  .program [declaring "Dog" (dogFactory
    [protoMethod "x" [declaring "self" .thisExpr, .returnStmt (some (.call
      (.member (.identifier "self") (.identifier "bark") false false)
      [.identifier "x", .identifier "_A"] false))]])]

/-- A method with an alias of `this` that uses a parameter of the factory. -/
theorem wellFormed_of_hygienic_aliasedDog :
    ∃ o, reconstruct {} aliasedDog = .ok o ∧ aliasedDog.Fits .bareHeads .any ∧
      o.state.tally.classes = 1 ∧ (∀ x ∈ o.state.seen, x.isHygienic = true) ∧ o.program.WellFormed ∧
        ∃ x ∈ o.state.seen, ∃ p ∈ x.sortedClass?, p.NeedsHygiene := by
  have hprogram : aliasedDog.Fits .bareHeads .any := by decide +kernel
  obtain ⟨o, ho, hclasses, hhygienic, hsorted⟩ : ∃ o, reconstruct {} aliasedDog = .ok o ∧
      o.state.tally.classes = 1 ∧ (∀ x ∈ o.state.seen, x.isHygienic = true) ∧
        ∃ x ∈ o.state.seen, x.sortedClass?.isSome = true := exists_outcome (by decide +kernel)
  obtain ⟨hwellFormed, hneeds⟩ := wellFormed_of_hygienic ho hprogram
  obtain ⟨x, hx, hsome⟩ := hsorted
  obtain ⟨p, hp⟩ := Option.isSome_iff_exists.1 hsome
  exact ⟨o, ho, hprogram, hclasses, hhygienic, hwellFormed hhygienic, x, hx,
    p, hp, hneeds x hx p hp⟩

/-- `var Dog = function (_A) { …; _proto.m = function (_A) { return _A; }; …
    }(Animal.Base);` -/
def shadowedDog : Node :=
  .program [declaring "Dog" (dogFactory [protoMethod "_A" [.returnStmt (some (.identifier "_A"))]])]

/-- `for (var Dog = function (_A) { … }(Animal.Base) in o) {}` -/
def loopedDog : Node :=
  .program [.forInStmt (declaring "Dog" (dogFactory [])) (.identifier "o") (.block []) false false]

/-- `Animal.Base` takes the place of a parameter with the name of the parameter
    of the factory; and a class takes the place of a declaration in the head of
    a loop. -/
theorem illFormed_of_shadowing :
    (shadowedDog.Fits .bareHeads .any ∧
      ∃ o, reconstruct {} shadowedDog = .ok o ∧ ¬o.program.WellFormed) ∧
    loopedDog.WellFormed ∧
      ∃ o, reconstruct {} loopedDog = .ok o ∧ (∀ x ∈ o.state.seen, x.isHygienic = true) ∧
        ¬o.program.WellFormed :=
  ⟨⟨by decide +kernel, exists_outcome (by decide +kernel)⟩,
    by decide +kernel, exists_outcome (by decide +kernel)⟩

end Resugar
