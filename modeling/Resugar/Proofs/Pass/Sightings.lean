import Resugar.Proofs.Class.Naming
import Resugar.Proofs.Pass.Run

/-!
# What a pass notes of declarators

A pass notes what becomes of each declarator that it meets (`Sighting`). The
notes are complete in both directions: every note is about a declarator of the
program that was given, as its visit left it, and says why it became a class or
an import, or stayed (`Ran.recorded`); and every declarator of the program that
is left is noted as one that stays, or a class brought it along (`Ran.carried`).
It may have been renamed since, or exported under another name.
-/

namespace Resugar

open Node List

namespace Node

/-- A declarator in a declaration of a tree. -/
def HasDeclarator (n d : Node) : Prop :=
  ∃ kind ds, varDecl kind ds ∈ n.walk ∧ d ∈ ds ∧ d.isDeclarator = true

variable {kind : VariableKind} {ds : List Node} {d n : Node}

theorem mem_children_varDecl : d ∈ (varDecl kind ds).children ↔ d ∈ ds := by
  simp [children, Field.walkedNodes, Field.list, Slot.nodes]

theorem mem_walk_of_mem_declarators (h : varDecl kind ds ∈ n.walk) (hd : d ∈ ds) : d ∈ n.walk :=
  walk_subset_of_mem_walk h (mem_walk_of_mem_children (mem_children_varDecl.2 hd))

theorem HasDeclarator.mem_walk (h : n.HasDeclarator d) : d ∈ n.walk := by
  obtain ⟨kind, ds, hds, hd, -⟩ := h
  exact mem_walk_of_mem_declarators hds hd

/-- A declarator in a tree is one in every tree around it. -/
theorem HasDeclarator.mono {m : Node} (h : n.HasDeclarator d) (hwalk : n.walk ⊆ m.walk) :
    m.HasDeclarator d := by
  obtain ⟨kind, ds, hds, hd⟩ := h
  exact ⟨kind, ds, hwalk hds, hd⟩

/-- Only a declaration has declarators of its own. -/
theorem hasDeclarator_iff (hn : n.isVarDecl = false) :
    n.HasDeclarator d ↔ ∃ c ∈ n.children, c.HasDeclarator d := by
  constructor
  · rintro ⟨kind, ds, hds, hd⟩
    rcases mem_walk_iff.1 hds with rfl | ⟨c, hc, hds⟩
    · cases hn
    · exact ⟨c, hc, kind, ds, hds, hd⟩
  · rintro ⟨c, hc, hd⟩
    exact hd.mono (walk_subset_of_mem_walk (mem_walk_of_mem_children hc))

/-- The declarators in a declaration are its own and those inside of them. -/
theorem hasDeclarator_varDecl :
    (varDecl kind ds).HasDeclarator d ↔ d ∈ ds ∧ d.isDeclarator = true ∨
      ∃ c ∈ ds, c.HasDeclarator d := by
  constructor
  · rintro ⟨kind', ds', hds', hd⟩
    rcases mem_walk_iff.1 hds' with heq | ⟨c, hc, hds'⟩
    · cases heq
      exact .inl hd
    · exact .inr ⟨c, mem_children_varDecl.1 hc, kind', ds', hds', hd⟩
  · rintro (hd | ⟨c, hc, hd⟩)
    · exact ⟨kind, ds, mem_walk_self _, hd⟩
    · exact hd.mono (walk_subset_of_mem_walk (mem_walk_of_mem_children (mem_children_varDecl.2 hc)))

end Node

/-! ## What is noted -/

namespace Verdict

/-- Whether a class takes the place of a declarator. -/
def isClass : Verdict → Bool
  | rebuilt .. => true
  | _ => false

/-- Whether a declarator becomes an import. -/
def isImport : Verdict → Bool
  | loaded .. => true
  | _ => false

end Verdict

namespace Surroundings

/-- Whether a class takes the place of a declarator: it holds a factory of a
    class, and there is room for the statements. -/
def isClass (e : Surroundings) (inList alone : Bool) (d : Node) : Bool :=
  e.config.classes && (Factory.ofDeclarator? d).toOption.join.any fun f =>
    f.statementCount?.any fun count => inList || (alone && count == 1)

/-- Why a pass notes what it does of a declarator. -/
inductive Judges (e : Surroundings) (d : Node) (inList alone : Bool) : Verdict → Prop
  | rebuilt {f : Factory} {name : Text} {ss : List Node}
    (hclass : e.isClass inList alone d = true) : Judges e d inList alone (.rebuilt f name ss)
  | loaded {binding name : Text} (himport : e.isImport inList alone d = true) :
    Judges e d inList alone (.loaded binding name)
  | kept (hclass : e.isClass inList alone d = false) (himport : e.isImport inList alone d = false) :
    Judges e d inList alone .kept

/-- A note about a declarator of a program, as its visit leaves it. -/
def Meets (e : Surroundings) (program : Node) (x : Sighting) : Prop :=
  ∃ n, program.HasDeclarator n ∧ Visit.Leaves e n x.declarator ∧
    e.Judges x.declarator x.inList x.alone x.verdict

end Surroundings

/-- The notes are about the declarators of a program, and classes and imports
    are counted as they are noted. -/
structure PassState.Recorded (e : Surroundings) (program : Node) (s : PassState) : Prop where
  classes : s.tally.classes = s.seen.countP (·.verdict.isClass)
  imports : s.tally.imports = s.seen.countP (·.verdict.isImport)
  met : ∀ x ∈ s.seen, x.verdict = .skipped ∨ e.Meets program x
  /-- Only beside a class is a declarator passed over. -/
  skipped : ∀ x ∈ s.seen, x.verdict = .skipped → ∃ y ∈ s.seen, y.verdict.isClass = true

namespace PassState.Recorded

variable {e : Surroundings} {program : Node} {s s' : PassState}

/-- Only the notes and the two counts matter. -/
theorem of_eq (hs : s.Recorded e program) (hseen : s'.seen = s.seen)
    (hclasses : s'.tally.classes = s.tally.classes)
    (himports : s'.tally.imports = s.tally.imports) : s'.Recorded e program where
  classes := by rw [hclasses, hseen, hs.classes]
  imports := by rw [himports, hseen, hs.imports]
  met := by rw [hseen]; exact hs.met
  skipped := by rw [hseen]; exact hs.skipped

theorem of_unnoted (hs : s.Recorded e program) (h : s'.seen = s.seen ∧ s'.tally = s.tally) :
    s'.Recorded e program :=
  hs.of_eq h.1 (congrArg Tally.classes h.2) (congrArg Tally.imports h.2)

/-- One more note. -/
theorem note (hs : s.Recorded e program) {x : Sighting}
    (hx : (x.verdict = .skipped ∧ ∃ y ∈ s.seen, y.verdict.isClass = true) ∨ e.Meets program x)
    (hseen : s'.seen = s.seen ++ [x])
    (hclasses : s'.tally.classes = s.tally.classes + if x.verdict.isClass then 1 else 0)
    (himports : s'.tally.imports = s.tally.imports + if x.verdict.isImport then 1 else 0) :
    s'.Recorded e program where
  classes := by rw [hclasses, hseen, countP_append, countP_singleton, hs.classes]
  imports := by rw [himports, hseen, countP_append, countP_singleton, hs.imports]
  met := by
    rw [hseen]
    exact forall_mem_append.2 ⟨hs.met, forall_mem_singleton.2 (hx.imp_left And.left)⟩
  skipped := by
    have hclass : ∀ y ∈ s.seen ++ [x], y.verdict = .skipped → ∃ z ∈ s.seen,
        z.verdict.isClass = true := by
      refine forall_mem_append.2 ⟨hs.skipped, forall_mem_singleton.2 fun hskipped => ?_⟩
      rcases hx with ⟨-, hclass⟩ | ⟨_, -, -, hjudges⟩
      · exact hclass
      · rw [hskipped] at hjudges
        cases hjudges
    rw [hseen]
    intro y hy hskipped
    obtain ⟨z, hz, hz'⟩ := hclass y hy hskipped
    exact ⟨z, mem_append_left _ hz, hz'⟩

end PassState.Recorded

namespace Surroundings

variable {e : Surroundings} {program n : Node} {kind : VariableKind} {inList alone : Bool}
  {d : Node} {s s' : PassState}

/-- Naming a class notes and counts nothing. -/
theorem nameClass_unnoted {f : Factory} {outside : Refs} {name : Text}
    (h : nameClass f outside s = .ok (name, s')) : s'.seen = s.seen ∧ s'.tally = s.tally := by
  obtain ⟨-, rfl⟩ | ⟨-, -, -, rfl⟩ := nameClass_cases h <;> exact ⟨rfl, rfl⟩

/-- A new name for a class does not stand in its factory. -/
theorem nameClass_mayName {f : Factory} {outside : Refs} {name : Text}
    (h : nameClass f outside s = .ok (name, s')) (hf : Factory.ofDeclarator? d = .ok (some f))
    (hd : d.Speaks (.inUse s) true) : f.MayName name := by
  obtain ⟨hname, -⟩ | ⟨hwrapped, hbinding, rfl, -⟩ := nameClass_cases h
  · exact .said hname
  · have hsimple := ruleOf_simple (.avoiding (s.names.fresh f.className) f.body.name)
    refine .free hwrapped hbinding
      (Factory.ofDeclarator?_inherits hsimple.hereditary hf
        (speaks_iff_fits.1 (hd.mono ?_ fun _ => id)))
    -- what stands in the factory is in use, and the new name is not, so they
    -- can only meet at `undefined`
    rintro x hx rfl
    have hundefined := hx.resolve_left (s.names.fresh_not_mem _)
    rw [(s.names.fresh_eq_or_ne_undefined _).resolve_right (not_not_intro hundefined),
      Factory.className, if_pos hwrapped]

/-- Where no class takes the place of a declarator, nothing is noted yet. -/
theorem ClassAt.unnoted (h : e.ClassAt kind inList alone d s none s') :
    s'.seen = s.seen ∧ s'.tally = s.tally := by
  cases h with
  | off => exact ⟨rfl, rfl⟩
  | noFactory => exact ⟨rfl, rfl⟩
  | declined hf hname => exact nameClass_unnoted hname

/-- A class takes the place of a declarator exactly if there is room for one. -/
theorem ClassAt.isClass_eq {o : Option (List Node)} (h : e.ClassAt kind inList alone d s o s')
    (hd : d.Speaks (.inUse s) true) : e.isClass inList alone d = o.isSome := by
  cases h with
  | off h => rw [isClass, h, Bool.false_and, Option.isSome_none]
  | noFactory h =>
    rw [isClass, h]
    exact Bool.and_false _
  | @declined f outside name s₁ c hf hname hc hplace =>
    -- the statements that there are for the class have no room, whatever its name is
    have hcount := (nameClass_mayName hname hf hd).length_statements hc kind
    rw [isClass, hf, Except.toOption, Option.join_some, Option.any_some, ← hcount]
    rcases hss : c.bind (f.toStatements kind name) with _ | ss
    · exact Bool.and_false _
    · rw [Option.map_some, Option.any_some, hplace ss hss]
      exact Bool.and_false _
  | @rebuilt f outside name s₁ c ss hclasses hf hname hc hss hplace =>
    have hcount := (nameClass_mayName hname hf hd).length_statements hc kind
    rw [Option.bind_some, hss, Option.map_some] at hcount
    rw [isClass, hclasses, hf, Except.toOption, Option.join_some, Option.any_some, ← hcount,
      Option.any_some, hplace]
    rfl

/-- A class is noted and counted. -/
theorem ClassAt.recorded {ss : List Node} (h : e.ClassAt kind inList alone d s (some ss) s')
    (hs : s.Recorded e program) (hspeaks : d.Speaks (.inUse s) true) (hn : program.HasDeclarator n)
    (hd : Visit.Leaves e n d) : s'.Recorded e program := by
  have hclass := h.isClass_eq hspeaks
  cases h with
  | rebuilt _ _ hname =>
    have hs₁ := hs.of_unnoted (nameClass_unnoted hname)
    exact hs₁.note (.inr ⟨n, hn, hd, .rebuilt hclass⟩) rfl rfl rfl

/-- A class that is rebuilt is noted. -/
theorem ClassAt.exists_class {ss : List Node} (h : e.ClassAt kind inList alone d s (some ss) s') :
    ∃ y ∈ s'.seen, y.verdict.isClass = true := by
  cases h
  exact ⟨_, mem_append_right _ (mem_singleton_self _), rfl⟩

/-- So is an import. -/
theorem TakesImport.recorded (h : e.TakesImport inList alone s d s')
    (hplace : e.isImport inList alone d = true) (hs : s.Recorded e program)
    (hn : program.HasDeclarator n) (hd : Visit.Leaves e n d) : s'.Recorded e program := by
  obtain @⟨_, _, _, _, _, s₁, hload, hname⟩ := h
  -- to find a name for the import is neither noted nor counted
  have hs₁ : s₁.Recorded e program := by
    obtain ⟨rfl, -⟩ | ⟨-, -, rfl⟩ := PassM.importBinding_cases hname
    · exact hs
    · exact hs.of_eq rfl rfl rfl
  exact hs₁.note (.inr ⟨n, hn, hd, .loaded hplace⟩) rfl rfl rfl

/-- Making an element leaves the notes. -/
theorem Marks.recorded {n' : Node} (h : e.Marks s n n' s') (hs : s.Recorded e program) :
    s'.Recorded e program := by
  cases h
  exact hs.of_eq rfl rfl rfl

end Surroundings

namespace Visit

variable {e : Surroundings} {program : Node} {s s' : PassState}

/-- The visits to a program keep the notes about its declarators. -/
def Records (e : Surroundings) (program : Node) : Law := fun _ n s _ s' =>
  n.walk ⊆ program.walk → s.Sound program.names → s.Recorded e program → s'.Recorded e program

/-- What is known of the visits of such nodes besides. -/
abbrev Recording (e : Surroundings) (program : Node) : Law :=
  Both (Both (Leaving e) Speaking) (Records e program)

namespace Recording

variable {inList : Bool} {n d : Node} {ns : List Node}

/-- A visit to a node of the program keeps the notes and promises. -/
theorem recorded (h : Recording e program inList n s ns s') (hn : n.walk ⊆ program.walk)
    (hsound : s.Sound program.names) (hs : s.Recorded e program) :
    s'.Sound program.names ∧ s'.Recorded e program :=
  ⟨h.1.2.1.sound hsound, h.2 hn hsound hs⟩

/-- A declarator is left by its visit, and all its names are in use. -/
theorem leaves (h : Recording e program false n s [d] s') (hn : n.walk ⊆ program.walk)
    (hs : s.Sound program.names) : Leaves e n d ∧ d.Speaks (.inUse s') true :=
  ⟨h.1.1 rfl d (mem_singleton_self d),
    h.1.2.inUse hs (filterMap_subset _ hn) d (mem_singleton_self d)⟩

end Recording

/-- The declarators beside a class are noted as they stay. -/
theorem Beside.recorded {ns ds : List Node} (h : Beside (Recording e program) ns s ds s')
    (hns : ∀ n ∈ ns, n.walk ⊆ program.walk) (hsound : s.Sound program.names)
    (hs : s.Recorded e program) (hclass : ∃ y ∈ s.seen, y.verdict.isClass = true) :
    s'.Recorded e program := by
  induction h with
  | nil => exact hs
  | @cons n d ns ds s s₁ s' first rest ih =>
    obtain ⟨hsound₁, hs₁⟩ := first.recorded (hns _ mem_cons_self) hsound hs
    obtain ⟨y, hy, hclass⟩ := hclass
    have hy₁ := first.1.2.1.grows.seen.subset hy
    refine ih (fun n hn => hns n (mem_cons_of_mem _ hn))
      ((PassState.Step.note s₁ _).sound hsound₁) ?_ ⟨y, mem_append_left _ hy₁, hclass⟩
    exact hs₁.note (.inl ⟨rfl, y, hy₁, hclass⟩) rfl rfl rfl

/-- Every declarator of a declaration is noted as what becomes of it: a class,
    an import, or neither. -/
theorem InDeclaration.recorded {kind : VariableKind} {inList : Bool} {done ns ss : List Node}
    (h : InDeclaration (Recording e program) e kind inList done ns s ss s')
    (hns : ∀ n ∈ ns, n.walk ⊆ program.walk ∧ (n.isDeclarator = true → program.HasDeclarator n))
    (hsound : s.Sound program.names) (hs : s.Recorded e program) : s'.Recorded e program := by
  induction h with
  | nil => exact hs
  | rebuilt hn first hclass others =>
    obtain ⟨⟨hwalk, hdeclarator⟩, hrest⟩ := forall_mem_cons.1 hns
    obtain ⟨hsound₁, hs₁⟩ := first.recorded hwalk hsound hs
    obtain ⟨hleaves, hspeaks⟩ := first.leaves hwalk hsound
    refine others.recorded (fun m hm => (hrest m hm).1)
      (hclass.reaches.sound hsound₁) ?_ hclass.exists_class
    exact hclass.recorded hs₁ hspeaks (hdeclarator hn) hleaves
  | loaded hn first hclass himport hplace others ih =>
    obtain ⟨⟨hwalk, hdeclarator⟩, hrest⟩ := forall_mem_cons.1 hns
    obtain ⟨hsound₁, hs₁⟩ := first.recorded hwalk hsound hs
    have hs₂ := hs₁.of_unnoted hclass.unnoted
    refine ih hrest (himport.reaches.sound (hclass.reaches.sound hsound₁)) ?_
    exact himport.recorded hplace hs₂ (hdeclarator hn) (first.leaves hwalk hsound).1
  | @kept done n d rest ns s s₁ s₂ s' hn first hclass himport others ih =>
    obtain ⟨⟨hwalk, hdeclarator⟩, hrest⟩ := forall_mem_cons.1 hns
    obtain ⟨hsound₁, hs₁⟩ := first.recorded hwalk hsound hs
    obtain ⟨hleaves, hspeaks⟩ := first.leaves hwalk hsound
    have hs₂ := hs₁.of_unnoted hclass.unnoted
    refine ih hrest ((PassState.Step.note s₂ _).sound (hclass.reaches.sound hsound₁)) ?_
    exact hs₂.note (.inr ⟨n, hdeclarator hn, hleaves,
      .kept (hclass.isClass_eq hspeaks) himport⟩) rfl rfl rfl
  | other hn first hsome others ih =>
    obtain ⟨⟨hwalk, -⟩, hrest⟩ := forall_mem_cons.1 hns
    obtain ⟨hsound₁, hs₁⟩ := first.recorded hwalk hsound hs
    exact ih hrest hsound₁ hs₁
  | empty hn first =>
    obtain ⟨⟨hwalk, -⟩, -⟩ := forall_mem_cons.1 hns
    exact (first.recorded hwalk hsound hs).2

/-- Every visit notes the declarators that it meets. Only declarations have any,
    so the other nodes pass on the notes of what stands below them. -/
theorem ofNode_records (e : Surroundings) (program n : Node) :
    (ofNode e n).Obeys (Records e program) n := by
  refine ofNode_obeys_both (fun n => (ofNode_leaving e n).both (ofNode_visits e n)) ?_ ?_ ?_ n
  · intro n inList accepts s s₁ s' slots n' hn hfields hsettle hwalk hsound hs
    obtain ⟨-, hs₁⟩ : s₁.Sound program.names ∧ s₁.Recorded e program := by
      refine hfields.keeps (P := fun s => s.Sound program.names ∧ s.Recorded e program)
        (Q := fun c => c.walk ⊆ program.walk) (fun h hc hs => Recording.recorded h hc hs.1 hs.2)
        (fun f hf hw c hc => ?_) ⟨hsound, hs⟩
      have hchild := mem_walk_of_mem_children (mem_children hf hw hc)
      exact List.Subset.trans (walk_subset_of_mem_walk hchild) hwalk
    obtain ⟨-, rfl⟩ | hmarks := Surroundings.settle_cases hsettle
    · exact hs₁
    · exact hmarks.recorded hs₁
  · exact fun kind inList s _ _ hs => hs
  · intro kind inList ds ss s s' _ hin hwalk hsound hs
    have hroot : .varDecl kind ds ∈ program.walk := hwalk (mem_walk_self _)
    -- the declaration stands in the program, so what is noted are declarators
    -- of the program
    refine hin.recorded (fun n hn =>
      ⟨?_, fun hdeclarator => ⟨kind, ds, hroot, hn, hdeclarator⟩⟩) hsound hs
    exact walk_subset_of_mem_walk (mem_walk_of_mem_declarators hroot hn)

end Visit

namespace Pass

variable {e : Surroundings} {program : Node} {s s' : PassState}

/-- An export leaves the notes. -/
theorem Exported.recorded {done rest done' : List Node} {stmt declaration : Node}
    {key binding : Text} (h : Exported s done stmt rest key binding done' declaration s')
    (hs : s.Recorded e program) : s'.Recorded e program := by
  cases h <;> exact hs.of_eq rfl rfl rfl

/-- Before the visits nothing is noted. -/
theorem start_recorded (e : Surroundings) (program : Node) (body : List Node) :
    (start e program body).Recorded e program := by
  have hempty : PassState.Recorded e program { names := Names.ofProgram program } :=
    ⟨rfl, rfl, nofun, nofun⟩
  unfold start
  dsimp only
  split
  · refine foldlRecOn _ _ hempty fun s hs said _ => ?_
    unfold applyDisplayName
    split
    · exact hs.of_eq rfl rfl rfl
    · exact hs
  · exact hempty

namespace Stage

variable {p q : Stage}

/-- One visit of a statement keeps the notes right. -/
theorem Advances.recorded (h : Advances e p q) (hrest : ∀ n ∈ p.rest, n.walk ⊆ program.walk)
    (hsound : p.state.Sound program.names) (hs : p.state.Recorded e program) :
    q.state.Recorded e program := by
  obtain @⟨done, done', stmt, rest, s, s', h⟩ := h
  obtain ⟨ns, s₁, hns, hcases⟩ := step_cases h
  have hvisit :=
    (Visit.ofNode_records e program stmt).spliced hns (hrest _ mem_cons_self) hsound hs
  obtain ⟨-, rfl⟩ | ⟨visited, key, binding, remains, declaration, -, -, -, hexported⟩ := hcases
  · exact hvisit
  · exact hexported.recorded hvisit

/-- A run keeps the notes right. -/
theorem Leads.recorded (h : Leads e p q) (hrest : ∀ n ∈ p.rest, n.walk ⊆ program.walk)
    (hsound : p.state.Sound program.names) (hs : p.state.Recorded e program) :
    q.state.Recorded e program := by
  induction h with
  | refl => exact hs
  | tail hlead hstep ih =>
    exact hstep.recorded (fun n hn => hrest n (Leads.rest_subset hlead hn))
      (Leads.sound hlead hsound) ih

end Stage

end Pass

/-- At the end of a pass, the notes are about the declarators of the program
    that was given. -/
theorem Outcome.Ran.recorded {o : Outcome} {program : Node} {body : List Node}
    (h : o.Ran program body) : o.state.Recorded o.surroundings program := by
  refine Pass.Stage.Leads.recorded h.leads (fun n hn => ?_) (Pass.start_sound ..)
    (Pass.start_recorded ..)
  have hchildren : (program.withStatements body).children = body :=
    children_withStatements h.statements
  rw [withStatements_self h.statements] at hchildren
  exact walk_subset_of_mem_walk (mem_walk_of_mem_children (hchildren ▸ hn))

/-! ## What is left -/

/-- A declarator that is noted as staying, or that a class brought. -/
inductive PassState.Notes (s : PassState) (d : Node) : Prop
  | stays {x : Sighting} (hx : x ∈ s.seen) (hd : x.declarator = d)
    (h : x.verdict = .kept ∨ x.verdict = .skipped)
  | brought {x : Sighting} {f : Factory} {name : Text} {ss : List Node} {t : Node} (hx : x ∈ s.seen)
    (h : x.verdict = .rebuilt f name ss) (ht : t ∈ ss) (hd : d ∈ t.walk)

/-- What is noted stays noted. -/
theorem PassState.Notes.mono {s s' : PassState} {d : Node} (h : s.Notes d)
    (hseen : s.seen ⊆ s'.seen) : s'.Notes d := by
  cases h with
  | stays hx hd h => exact .stays (hseen hx) hd h
  | brought hx h ht hd => exact .brought (hseen hx) h ht hd

namespace Node

variable {n : Node} {s s' : PassState}

theorem isVarDecl_setSlots (slots : Nat → Slot Node) (n : Node) :
    (n.setSlots slots).isVarDecl = n.isVarDecl := by
  cases n <;> rfl

/-- All declarators of a tree are noted. -/
def Accounted (s : PassState) (n : Node) : Prop :=
  ∀ d, n.HasDeclarator d → s.Notes d

theorem Accounted.mono (h : n.Accounted s) (hseen : s.seen ⊆ s'.seen) : n.Accounted s' :=
  fun d hd => (h d hd).mono hseen

theorem Accounted.of_mem_walk {c : Node} (h : n.Accounted s) (hc : c ∈ n.walk) : c.Accounted s :=
  fun d hd => h d (hd.mono (walk_subset_of_mem_walk hc))

theorem Accounted.of_mem_children {c : Node} (h : n.Accounted s) (hc : c ∈ n.children) :
    c.Accounted s :=
  h.of_mem_walk (mem_walk_of_mem_children hc)

/-- A node that is no declaration has only the declarators below it. -/
theorem accounted_of_children (hn : n.isVarDecl = false) (h : ∀ c ∈ n.children, c.Accounted s) :
    n.Accounted s := by
  intro d hd
  obtain ⟨c, hc, hd⟩ := (hasDeclarator_iff hn).1 hd
  exact h c hc d hd

/-- A declaration is accounted for if its declarators and all below are. -/
theorem accounted_varDecl {kind : VariableKind} {ds : List Node} :
    (varDecl kind ds).Accounted s ↔
      ∀ d ∈ ds, (d.isDeclarator = true → s.Notes d) ∧ d.Accounted s := by
  constructor
  · intro h d hd
    have hchild := h.of_mem_children (mem_children_varDecl.2 hd)
    exact ⟨fun hdeclarator => h d (hasDeclarator_varDecl.2 (.inl ⟨hd, hdeclarator⟩)), hchild⟩
  · intro h d hd
    rcases hasDeclarator_varDecl.1 hd with ⟨hd, hdeclarator⟩ | ⟨c, hc, hd⟩
    · exact (h d hd).1 hdeclarator
    · exact (h c hc).2 d hd

end Node

/-- An element has the declarators of the call in whose place it stands. -/
theorem inherited_accounted (s : PassState) : Inherited (·.Accounted s) fun _ => True where
  child h hc := h.of_mem_children hc
  literal _ _ := accounted_of_children rfl nofun
  text _ := accounted_of_children rfl nofun
  container h := accounted_of_children rfl (forall_mem_singleton.2 h)
  object h := accounted_of_children rfl (forall_mem_singleton.2 h)
  named _ h := accounted_of_children rfl (forall_mem_singleton.2 h)
  spread h := accounted_of_children rfl (forall_mem_singleton.2 h)
  element {name attributes children} _ hattributes hchildren := by
    refine accounted_of_children rfl fun c hc => ?_
    have hc : c ∈ attributes ∨ c ∈ children := by
      simpa [Node.children, Field.walkedNodes, Field.list, Slot.nodes] using hc
    exact hc.elim (fun hc => (hattributes c hc).2) fun hc => (hchildren c hc).2
  parenthesized h := accounted_of_children rfl (forall_mem_singleton.2 h)
  conditional htest hconsequent halternate := by
    refine accounted_of_children rfl
      (forall_mem_cons.2 ⟨htest, forall_mem_cons.2 ⟨hconsequent, ?_⟩⟩)
    exact forall_mem_singleton.2 halternate
  logical _ _ _ hleft hright :=
    accounted_of_children rfl
      (forall_mem_cons.2 ⟨hleft, forall_mem_singleton.2 hright⟩)

namespace Surroundings

variable {e : Surroundings} {s s' : PassState} {n n' : Node}

/-- What stands for a visited node has no other declarators. -/
theorem Tidies.accounted {r : Renaming} (h : Tidies r n n') (hn : n.Accounted s) :
    n'.Accounted s := by
  cases h with
  | same => exact hn
  | renamed | collapsed | restored => exact accounted_of_children rfl nofun
  | unwrapped callee arguments o =>
    refine accounted_of_children rfl (forall_mem_cons.2 ⟨?_, fun c hc => ?_⟩)
    · exact (hn.of_mem_children mem_cons_self).of_mem_walk callee.unwrapIndirectCallee_mem_walk
    · exact hn.of_mem_children (mem_cons_of_mem _ hc)

/-- Settling a node brings no new declarator. -/
theorem settle_accounted {accepts : Bool} (h : e.settle accepts n s = .ok (n', s'))
    (hn : n.Accounted s) : n'.Accounted s' := by
  obtain ⟨rfl, rfl⟩ | hmarks := settle_cases h
  · exact (e.tidies _ n).accounted hn
  · obtain ⟨helement⟩ := hmarks
    exact Dialect.element?_inherits (inherited_accounted _) helement
      ⟨hn.mono (List.Subset.refl _), fun _ _ _ _ => trivial⟩

theorem Tidies.isDeclarator {r : Renaming} (h : Tidies r n n') (hn : n.isDeclarator = false) :
    n'.isDeclarator = false := by
  cases h with
  | same => exact hn
  | _ => rfl

/-- Only a declarator is settled as one. -/
theorem settle_isDeclarator {accepts : Bool} (h : e.settle accepts n s = .ok (n', s'))
    (hn : n.isDeclarator = false) : n'.isDeclarator = false := by
  obtain ⟨rfl, rfl⟩ | hmarks := settle_cases h
  · exact (e.tidies _ n).isDeclarator hn
  · obtain ⟨helement⟩ := hmarks
    cases n' with
    | declarator => exact nomatch (Dialect.element?_eq_some helement).2
    | _ => rfl

/-- The statements for a class are noted, with all declarators in them. -/
theorem ClassAt.notes {kind : VariableKind} {inList alone : Bool} {d : Node}
    {ss : List Node} (h : e.ClassAt kind inList alone d s (some ss) s') {m c : Node}
    (hm : m ∈ ss) (hc : c ∈ m.walk) : s'.Notes c := by
  cases h with
  | rebuilt hclasses hf hname hc' hss hplace =>
    exact .brought (mem_append_right _ (mem_singleton_self _)) rfl hm hc

end Surroundings

namespace Visit

variable {e : Surroundings} {s s' : PassState}

/-- The declarators in what a visit leaves are noted, and so is one that it
    leaves of another node. -/
def Accounts : Law := fun _ n s ns s' =>
  s.Reaches s' ∧ (∀ m ∈ ns, m.Accounted s') ∧
    (n.isDeclarator = false → ∀ m ∈ ns, m.isDeclarator = true → s'.Notes m)

/-- What comes from a visited node is accounted for. -/
theorem Origin.accounted {n n' : Node} (h : Origin Accounts s s' n n') :
    n'.Accounted s' ∧ (n.isDeclarator = false → n'.isDeclarator = true → s'.Notes n') := by
  obtain ⟨inList, s₁, ns, s₂, -, ⟨-, haccounted, hnotes⟩, hs₂, hn'⟩ := h
  have hseen := hs₂.grows.seen.subset
  exact ⟨(haccounted n' hn').mono hseen,
    fun hn hdeclarator => (hnotes hn n' hn' hdeclarator).mono hseen⟩

/-- What takes the place of a declaration is accounted for: what stays is noted,
    and a class says what it brings. -/
theorem FromDeclaration.accounted {kind : VariableKind} {inList : Bool} {ns : List Node} {m : Node}
    (h : FromDeclaration Accounts e kind inList s s' [] ns m) :
    m.Accounted s' ∧ (m.isDeclarator = true → s'.Notes m) := by
  cases h with
  | declared h =>
    refine ⟨accounted_varDecl.2 fun d hd => ?_, nofun⟩
    obtain ⟨n, -, horigin, hstays⟩ := (h d hd).resolve_left not_mem_nil
    obtain ⟨haccounted, hnotes⟩ := horigin.accounted
    refine ⟨fun hdeclarator => ?_, haccounted⟩
    -- a declarator that is left of another node is noted by its own visit
    rcases hn : n.isDeclarator with _ | _
    · exact hnotes hn hdeclarator
    · obtain ⟨x, hx, hxd, hverdict⟩ := hstays hn
      exact .stays hx hxd hverdict
  | brought hn hdeclarator h₀ hd hclass h₂ hm =>
    have hnotes {c : Node} (hc : c ∈ m.walk) : s'.Notes c :=
      (hclass.notes hm hc).mono h₂.grows.seen.subset
    exact ⟨fun c hc => hnotes hc.mem_walk, fun _ => hnotes m.mem_walk_self⟩

theorem ofNode_accounts (e : Surroundings) (n : Node) : (ofNode e n).Obeys Accounts n := by
  refine ofNode_obeys ?_ ?_ ?_ n
  · intro n inList accepts s s₁ s' slots n' hn hfields hsettle
    -- no declaration, so all declarators stand in what is left below
    have hbelow : (n.withSlots slots).Accounted s₁ := by
      refine accounted_of_children ?_ fun c hc => ?_
      · rw [withSlots, isVarDecl_setSlots]
        cases n with
        | varDecl kind ds => exact absurd rfl (hn kind ds)
        | _ => rfl
      · obtain ⟨f, hf, hwalked, hc⟩ := mem_children_iff.1 hc
        obtain ⟨g, -, hg, ⟨hnot, -⟩ | ⟨-, c₀, -, horigin⟩⟩ :=
          hfields.withSlots_origin And.left hf hc
        · rw [hg, hnot] at hwalked
          cases hwalked
        · exact horigin.accounted.1
    refine ⟨(hfields.origin And.left).1.trans (Surroundings.settle_reaches hsettle),
      ?_, fun hdeclarator => ?_⟩
    · exact forall_mem_singleton.2 (Surroundings.settle_accounted hsettle hbelow)
    · have hn' := Surroundings.settle_isDeclarator hsettle
        (by rwa [withSlots, isDeclarator_setSlots])
      refine forall_mem_singleton.2 fun h => ?_
      rw [hn'] at h
      cases h
  · intro kind inList s
    have haccounted : (Node.varDecl kind []).Accounted s :=
      accounted_varDecl.2 (forall_mem_nil _)
    refine ⟨.refl, forall_mem_singleton.2 haccounted, fun _ => ?_⟩
    exact forall_mem_singleton.2 fun h => absurd h Bool.false_ne_true
  · intro kind inList ds ss s s' _ hin
    obtain ⟨hreach, hfrom⟩ := hin.origin And.left
    exact ⟨hreach, fun m hm => (hfrom m hm).accounted.1, fun _ m hm => (hfrom m hm).accounted.2⟩

end Visit

/-! ## Runs -/

namespace Pass

variable {e : Surroundings} {s s' : PassState}

/-- A statement that a run leaves: its declarators are noted, or it exports a
    variable with its value. Then the declarator of the variable is noted, and
    so are those in the value, as it was then renamed. -/
inductive Left (s : PassState) : Node → Prop
  | plain {n : Node} (h : n.Accounted s) : Left s n
  | exported {key binding : Text} {init : Node} {r : Renaming} (hkey : (key, binding) ∈ s.extracted)
    (hr : r.entries <+: s.renames.entries)
    (hvariable : s.Notes (.declarator (.identifier binding) (some init)))
    (hinit : init.Accounted s) : Left s (exportValue key (movedValue r init))

theorem Left.mono {n : Node} (h : Left s n) (hs : s.Grows s') : Left s' n := by
  have hseen := hs.seen.subset
  cases h with
  | plain h => exact .plain (h.mono hseen)
  | exported hkey hr hvariable hinit =>
    exact .exported (hs.extracted.subset hkey) (hr.trans hs.renames)
      (hvariable.mono hseen) (hinit.mono hseen)

theorem Left.varDecl {kind : VariableKind} {ds : List Node} (h : Left s (.varDecl kind ds)) :
    (varDecl kind ds).Accounted s := by
  generalize hn : Node.varDecl kind ds = n at h
  cases h with
  | plain h => exact h
  | exported =>
    unfold exportValue at hn
    split at hn <;> cases hn

/-- An export of a binding has no declarators. -/
theorem accounted_exportBinding (s : PassState) (key binding : Text) :
    (exportBinding key binding).Accounted s := by
  have hname (x : Text) : (identifier x).Accounted s := accounted_of_children rfl nofun
  unfold exportBinding
  split
  · exact accounted_of_children rfl (forall_mem_singleton.2 (hname _))
  · refine accounted_of_children rfl (forall_mem_singleton.2 ?_)
    exact accounted_of_children rfl (forall_mem_singleton.2 (hname _))

/-- An export leaves the statements before it accounted for. The declarator of a
    variable whose value it takes was noted in its declaration. -/
theorem Exported.left {done rest done' : List Node} {stmt declaration : Node} {key binding : Text}
    (h : Exported s done stmt rest key binding done' declaration s')
    (hdone : ∀ n ∈ done, Left s n) : ∀ n ∈ done' ++ [declaration], Left s' n := by
  have hgrows := h.grows
  cases h with
  | bound exported =>
    refine forall_mem_append.2
      ⟨fun n hn => (hdone n hn).mono hgrows, forall_mem_singleton.2 (.plain ?_)⟩
    exact accounted_exportBinding _ key binding
  | @moved remains init h exported =>
    obtain ⟨ss, kind, before, after, ts, rfl, hremains⟩ := h.split
    obtain ⟨hss, hdefinition, hts⟩ : (∀ n ∈ ss, Left s n) ∧ Left s _ ∧ ∀ n ∈ ts, Left s n := by
      simpa only [forall_mem_append, forall_mem_cons] using hdone
    have hds := accounted_varDecl.1 hdefinition.varDecl
    refine forall_mem_append.2
      ⟨fun n hn => Left.mono ?_ hgrows, forall_mem_singleton.2 ?_⟩
    · -- the definition loses a declarator, and gets none
      rcases hremains n hn with hn | rfl | hn
      · exact hss n hn
      · refine .plain (accounted_varDecl.2 fun d hd => hds d ?_)
        exact mem_append.2 ((mem_append.1 hd).imp_right (mem_cons_of_mem _))
      · exact hts n hn
    · obtain ⟨hvariable, hdeclarator⟩ := hds _ (mem_append_right _ mem_cons_self)
      have hinit :=
        hdeclarator.of_mem_children (mem_cons_of_mem _ (mem_singleton_self init))
      exact .exported (mem_append_right _ (mem_singleton_self _)) (prefix_refl _)
        ((hvariable rfl).mono (List.Subset.refl _)) (hinit.mono (List.Subset.refl _))

namespace Stage

variable {p q : Stage}

/-- One visit adds only statements that are accounted for. -/
theorem Advances.left (h : Advances e p q) (hdone : ∀ n ∈ p.done, Left p.state n) :
    ∀ n ∈ q.done, Left q.state n := by
  obtain @⟨done, done', stmt, rest, s, s', h⟩ := h
  obtain ⟨ns, s₁, hns, hcases⟩ := step_cases h
  obtain ⟨hreach, haccounted, -⟩ := (Visit.ofNode_accounts e stmt).spliced hns
  have hdone₁ : ∀ n ∈ done, Left s₁ n := fun n hn => (hdone n hn).mono hreach.grows
  obtain ⟨rfl, rfl⟩ | ⟨visited, key, binding, remains, declaration, rfl, -, rfl, hexported⟩ :=
    hcases
  · exact forall_mem_append.2 ⟨hdone₁, fun n hn => .plain (haccounted n hn)⟩
  · exact hexported.left hdone₁

/-- A run leaves only statements that are accounted for. -/
theorem Leads.left (h : Leads e p q) (hdone : ∀ n ∈ p.done, Left p.state n) :
    ∀ n ∈ q.done, Left q.state n := by
  induction h with
  | refl => exact hdone
  | tail _ hstep ih => exact hstep.left ih

end Stage

end Pass

/-! ## Renaming -/

namespace Renaming

variable {r : Renaming} {n c : Node}

/-- A name takes the place of what is renamed. -/
theorem rename?_eq_some {m : Node} (h : r.rename? n = some m) : ∃ x, m = .identifier x := by
  unfold rename? at h
  split at h
  · cases h
    exact ⟨_, rfl⟩
  · obtain ⟨x, -, -, -, -, rfl, -⟩ := collapse?_eq_some h
    exact ⟨x, rfl⟩

/-- What stands below a renamed node is what stood there, renamed. -/
theorem mem_children_replaceAll {nested : Bool}
    (h : c ∈ (n.replaceAll (fun _ => r.rename?) nested).children) :
    ∃ m ∈ n.children, c = m.replaceAll (fun _ => r.rename?) false := by
  rw [replaceAll_eq] at h
  dsimp only at h
  rcases hrename : r.rename? (n.withSlots _) with _ | m
  · rw [hrename, Option.getD_none, children_withSlots_map] at h
    obtain ⟨m, hm, rfl⟩ := mem_map.1 h
    exact ⟨m, hm, m.replaceAll_nested r.rename? _⟩
  · -- nothing stands below a name
    obtain ⟨x, rfl⟩ := rename?_eq_some hrename
    rw [hrename] at h
    cases h

/-- The nodes of a renamed tree are those of the tree, renamed. -/
theorem mem_walk_replaceAll (h : c ∈ (n.replaceAll (fun _ => r.rename?) false).walk) :
    ∃ m ∈ n.walk, c = m.replaceAll (fun _ => r.rename?) false := by
  induction n using induct with
  | h n ih =>
    rcases mem_walk_iff.1 h with rfl | ⟨c', hc', hc⟩
    · exact ⟨n, n.mem_walk_self, rfl⟩
    · obtain ⟨m, hm, rfl⟩ := mem_children_replaceAll hc'
      obtain ⟨m', hm', rfl⟩ := ih m (mem_parts_of_mem_children hm) hc
      exact ⟨m', mem_walk_iff.2 (.inr ⟨m, hm, hm'⟩), rfl⟩

/-- A declaration stays one when it is renamed, and nothing else becomes one. -/
theorem isVarDecl_replaceAll (r : Renaming) (n : Node) (nested : Bool) :
    (n.replaceAll (fun _ => r.rename?) nested).isVarDecl = n.isVarDecl := by
  cases n with
  | member receiver property computed isOptional =>
    obtain ⟨_, _, h⟩ | ⟨_, h⟩ :=
      r.replaceAll_member receiver property computed isOptional nested <;> rw [h] <;> rfl
  | _ => rfl

/-- So does a declarator. -/
theorem isDeclarator_replaceAll (r : Renaming) (n : Node) (nested : Bool) :
    (n.replaceAll (fun _ => r.rename?) nested).isDeclarator = n.isDeclarator := by
  cases n with
  | member receiver property computed isOptional =>
    obtain ⟨_, _, h⟩ | ⟨_, h⟩ :=
      r.replaceAll_member receiver property computed isOptional nested <;> rw [h] <;> rfl
  | _ => rfl

/-- The declarators of a renamed statement are its own, renamed. -/
theorem exists_hasDeclarator (h : (r.inStatement n).HasDeclarator c) :
    ∃ d, n.HasDeclarator d ∧ c = r.inStatement d := by
  unfold inStatement at h
  split at h
  · rename_i hempty
    exact ⟨c, h, (if_pos hempty).symm⟩
  · rename_i hentries
    obtain ⟨kind, ds, hds, hc, hdeclarator⟩ := h
    obtain ⟨m, hm, heq⟩ := mem_walk_replaceAll hds
    have hvarDecl := r.isVarDecl_replaceAll m false
    rw [← heq] at hvarDecl
    obtain ⟨d, hd, rfl⟩ := mem_children_replaceAll (heq ▸ mem_children_varDecl.2 hc)
    rw [isDeclarator_replaceAll] at hdeclarator
    cases m with
    | varDecl kind' ds' =>
      exact ⟨d, ⟨kind', ds', hm, mem_children_varDecl.1 hd,
        hdeclarator⟩, (if_neg hentries).symm⟩
    | _ => cases hvarDecl

end Renaming

namespace Outcome

/-- A declarator of the program that a pass leaves, and what it was when the
    pass noted it: it is renamed, and if its value is exported, the exported
    name declares it. What stands in such a value is renamed twice. -/
inductive Carries (o : Outcome) (d : Node) : Node → Prop
  | renamed {r : Renaming} (hr : r.entries <+: o.state.renames.entries) :
    Carries o d (o.state.renames.inStatement (r.inStatement d))
  | exported {r : Renaming} {key binding : Text} {init : Node}
    (hr : r.entries <+: o.state.renames.entries)
    (hd : d = .declarator (.identifier binding) (some init))
    (hkey : (key, binding) ∈ o.state.extracted) :
    Carries o d (o.state.renames.inStatement
      (.declarator (.identifier key) (some (Pass.movedValue r init))))

end Outcome

namespace Pass

/-- A value that moves is renamed like a statement, but for a name. -/
theorem movedValue_eq_inStatement (r : Renaming) {init : Node} (hid : ∀ x, init ≠ .identifier x) :
    movedValue r init = r.inStatement init := by
  unfold movedValue Renaming.inStatement Renaming.sweep
  split
  · rename_i hempty
    rcases hrename : r.rename? init with _ | m
    · rfl
    · rw [List.isEmpty_iff] at hempty
      unfold Renaming.rename? at hrename
      split at hrename
      · exact absurd rfl (hid _)
      · obtain ⟨x, -, -, -, -, -, hx⟩ := Renaming.collapse?_eq_some hrename
        rw [Renaming.isBinding, hempty] at hx
        cases hx
  · rw [replaceAll_eq, Bool.false_or]
    split
    · exact absurd rfl (hid _)
    · rfl

variable {d : Node}

/-- The declarators of an exported value are those of the value, renamed. -/
theorem exists_of_movedValue {r : Renaming} {init : Node}
    (h : (movedValue r init).HasDeclarator d) :
    ∃ d', init.HasDeclarator d' ∧ d = r.inStatement d' := by
  -- a variable is not renamed as a statement is, but it has no declarators anyway
  by_cases hid : ∃ x, init = .identifier x
  · obtain ⟨x, rfl⟩ := hid
    have hname : ∃ y, movedValue r (.identifier x) = .identifier y := by
      unfold movedValue Renaming.sweep
      split <;> exact ⟨_, rfl⟩
    obtain ⟨y, hy⟩ := hname
    obtain ⟨c, hc, -⟩ := (hasDeclarator_iff rfl).1 (hy ▸ h)
    cases hc
  · rw [movedValue_eq_inStatement r fun x hx => hid ⟨x, hx⟩] at h
    exact Renaming.exists_hasDeclarator h

/-- An exported value brings its declarators, under a name unless it is the
    default export. -/
theorem hasDeclarator_exportValue {key : Text} {value : Node}
    (h : (exportValue key value).HasDeclarator d) :
    d = .declarator (.identifier key) (some value) ∨ value.HasDeclarator d := by
  unfold exportValue at h
  split at h
  · obtain ⟨c, hc, hd⟩ := (hasDeclarator_iff rfl).1 h
    exact .inr (mem_singleton.1 hc ▸ hd)
  · obtain ⟨c, hc, hd⟩ := (hasDeclarator_iff rfl).1 h
    obtain rfl := mem_singleton.1 hc
    rcases hasDeclarator_varDecl.1 hd with ⟨hd, -⟩ | ⟨c, hc, hd⟩
    · exact .inl (mem_singleton.1 hd)
    · obtain rfl := mem_singleton.1 hc
      obtain ⟨c, hc, hd⟩ := (hasDeclarator_iff rfl).1 hd
      rcases mem_cons.1 hc with rfl | hc
      · obtain ⟨c, hc, -⟩ := (hasDeclarator_iff rfl).1 hd
        cases hc
      · exact .inr (mem_singleton.1 hc ▸ hd)

/-- A declarator in a statement that a run leaves was noted, and is carried on
    into the program. -/
theorem Left.carried {o : Outcome} {n : Node} (h : Left o.state n) (hd : n.HasDeclarator d) :
    ∃ d', o.state.Notes d' ∧ o.Carries d' (o.state.renames.inStatement d) := by
  cases h with
  | plain h => exact ⟨d, h d hd, .renamed (r := {}) List.nil_prefix⟩
  | @exported key binding init r hkey hr hvariable hinit =>
    rcases hasDeclarator_exportValue hd with rfl | hd
    · exact ⟨_, hvariable, .exported hr rfl hkey⟩
    · obtain ⟨d', hd', rfl⟩ := exists_of_movedValue hd
      exact ⟨d', hinit d' hd', .renamed hr⟩

end Pass

theorem Import.not_hasDeclarator (i : Import) (d : Node) : ¬i.declaration.HasDeclarator d := by
  have hwalk : i.declaration.walk.all (!·.isVarDecl) = true := by
    unfold declaration
    cases i.kind <;> rfl
  rintro ⟨kind, ds, hds, -⟩
  exact nomatch all_eq_true.1 hwalk _ hds

/-- Every declarator of the program that a pass leaves is one that it noted. -/
theorem Outcome.Ran.carried {o : Outcome} {program : Node} {body : List Node}
    (h : o.Ran program body) {n : Node} (hn : o.program.HasDeclarator n) :
    ∃ d, o.state.Notes d ∧ o.Carries d n := by
  have hroot : (program.withStatements (Pass.splice o.added o.kept)).isVarDecl = false := by
    obtain rfl | rfl | rfl := statements_cases h.statements <;> rfl
  rw [h.program_eq] at hn
  obtain ⟨stmt, hstmt, hn⟩ := (hasDeclarator_iff hroot).1 hn
  rw [children_withStatements h.statements] at hstmt
  rcases Pass.mem_splice.1 hstmt with hstmt | hstmt
  · obtain ⟨i, -, rfl⟩ := mem_map.1 hstmt
    exact absurd hn (i.not_hasDeclarator n)
  · obtain ⟨m, hm, rfl⟩ := h.exists_of_mem_kept hstmt
    obtain ⟨d, hd, rfl⟩ := Renaming.exists_hasDeclarator hn
    exact (Pass.Stage.Leads.left h.leads nofun m hm).carried hd

end Resugar
