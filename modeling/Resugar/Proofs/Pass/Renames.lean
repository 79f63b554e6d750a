import Resugar.Proofs.Pass.Run

/-!
# New names reach everywhere

A variable that becomes an import is renamed, and its occurrences with it: in
the visits that come later, where an export takes a value along, and in a last
sweep over the program. Each of them is renamed once only if no variable has the
new name of another one. This is so when the variables that become imports have
different names, none of which is the name of an import before
(`PassState.Loaded.apart`).
-/

namespace Resugar

open Node List Renaming

/-! ## Declarators that become imports -/

/-- The variable of a declarator that becomes an import, and its new name. -/
def Sighting.load? (x : Sighting) : Option (Text × Text) :=
  match x.verdict with
  | .loaded binding name => some (binding, name)
  | _ => none

namespace PassState

/-- The variables that become imports, with their names, as visited. -/
def loads (s : PassState) : List (Text × Text) :=
  s.seen.filterMap Sighting.load?

/-- The imported variables have different names, none of an earlier import. -/
def LoadsApart (loads : List (Text × Text)) : Prop :=
  (loads.map Prod.fst).Nodup ∧ loads.Pairwise fun earlier later => later.1 ≠ earlier.2

theorem LoadsApart.of_append {ls ms : List (Text × Text)} (h : LoadsApart (ls ++ ms)) :
    LoadsApart ls :=
  ⟨(map_append ▸ h.1).of_append_left, (pairwise_append.1 h.2).1⟩

/-- What the state knows of the variables that become imports. -/
structure Loaded (s : PassState) : Prop where
  /-- They are in use, and so are the names that they get. -/
  used : ∀ l ∈ s.loads, l.1 ∈ s.names.used ∧ l.2 ∈ s.names.used
  /-- Each import has the name that some of them get. -/
  imported : ∀ i ∈ s.imported, ∃ l ∈ s.loads, l.2 = i.name
  /-- Only they are renamed. -/
  renamed : ∀ entry ∈ s.renames.entries, entry ∈ s.loads ∧ entry.1 ≠ entry.2
  /-- If their names differ, all that get another one are renamed. -/
  table : (s.loads.map Prod.fst).Nodup →
    s.renames.entries = s.loads.filter fun l => l.1 ≠ l.2
  /-- One whose name another one gets keeps it. -/
  apart : LoadsApart s.loads → ∀ l ∈ s.loads, ∀ m ∈ s.loads, m.1 = l.2 → m.1 = m.2

variable {s s' : PassState}

/-- What does not touch imports and names leaves what is known of them. -/
theorem Loaded.of_eq (h : s.Loaded) (hloads : s'.loads = s.loads)
    (hnames : s.names.used ⊆ s'.names.used) (himported : s'.imported = s.imported)
    (hrenames : s'.renames = s.renames) : s'.Loaded where
  used l hl := (h.used l (hloads ▸ hl)).imp (fun h => hnames h) fun h => hnames h
  imported := by rw [himported, hloads]; exact h.imported
  renamed := by rw [hrenames, hloads]; exact h.renamed
  table := by rw [hrenames, hloads]; exact h.table
  apart := by rw [hloads]; exact h.apart

theorem loads_noting (s : PassState) (x : Sighting) :
    { s with seen := s.seen ++ [x] }.loads = s.loads ++ x.load?.toList := by
  rw [loads, filterMap_append]
  cases hx : x.load? <;> simp [hx, loads]

end PassState

open PassState

namespace Surroundings

variable {e : Surroundings} {s s' : PassState}

/-- One more variable becomes an import. -/
theorem TakesImport.loaded {inList alone : Bool} {binding : Text} {init : Option Node}
    (h : e.TakesImport inList alone s (.declarator (.identifier binding) init) s') (hs : s.Loaded)
    (hbinding : binding ∈ s.names.used) : s'.Loaded := by
  obtain @⟨_, source, name, init, kind, s₁, -, hname⟩ := h
  -- the import is one that another variable has, or it is new
  have hnew : s₁.loads = s.loads ∧ s₁.renames = s.renames ∧ s.names.used ⊆ s₁.names.used ∧
      name ∈ s₁.names.used ∧ (∀ i ∈ s₁.imported, i ∈ s.imported ∨ i.name = name) ∧
      ((∃ l ∈ s.loads, l.2 = name) ∨ binding = name ∨ name ∉ s.names.used) := by
    obtain ⟨rfl, i, hi, rfl⟩ | ⟨-, hfree, rfl⟩ := PassM.importBinding_cases hname
    · obtain ⟨l, hl, hl'⟩ := hs.imported i hi
      exact ⟨rfl, rfl, List.Subset.refl _, hl' ▸ (hs.used l hl).2,
        fun j hj => .inl hj, .inl ⟨l, hl, hl'⟩⟩
    · refine ⟨rfl, rfl, fun x hx => Names.mem_insert.2 (.inl hx), Names.mem_insert.2 (.inr rfl),
        fun j hj => ?_, .inr hfree⟩
      refine (mem_append.1 hj).imp_right fun hj => ?_
      rw [mem_singleton.1 hj]
  obtain ⟨hloads, hrenames, hused, hnameUsed, himported, hcases⟩ := hnew
  let x : Sighting :=
    ⟨.declarator (.identifier binding) (some init), inList, alone, .loaded binding name⟩
  have hall : PassState.loads { s₁ with seen := s₁.seen ++ [x] } =
      s.loads ++ [(binding, name)] := by
    rw [loads_noting, hloads]
    rfl
  refine ⟨?_, ?_, ?_, ?_, ?_⟩ <;> simp only [PassState.loads] at hall ⊢ <;> rw [hall]
  · refine forall_mem_append.2
      ⟨fun l hl => ?_, forall_mem_singleton.2 ⟨hused hbinding, hnameUsed⟩⟩
    exact (hs.used l hl).imp (fun h => hused h) fun h => hused h
  · intro i hi
    rcases himported i hi with hi | hi
    · obtain ⟨l, hl, hl'⟩ := hs.imported i hi
      exact ⟨l, mem_append_left _ hl, hl'⟩
    · exact ⟨(binding, name), mem_append_right _ (mem_singleton_self _), hi.symm⟩
  · intro entry hentry
    rw [hrenames, add] at hentry
    split at hentry
    · exact (hs.renamed entry hentry).imp_left fun h => mem_append_left _ h
    · rename_i hadd
      rcases mem_append.1 hentry with hentry | hentry
      · exact (hs.renamed entry hentry).imp_left fun h => mem_append_left _ h
      · obtain rfl := mem_singleton.1 hentry
        exact ⟨mem_append_right _ (mem_singleton_self _), fun heq => hadd (.inl heq)⟩
  · intro hnodup
    rw [map_append, nodup_append] at hnodup
    -- a variable that has a new name already would be loaded twice
    have hhas : s.renames.has binding = false := by
      rw [has, Option.isSome_eq_false_iff, Option.isNone_iff_eq_none]
      by_contra hsome
      obtain ⟨y, hy⟩ := Option.ne_none_iff_exists'.1 hsome
      have hload := (hs.renamed (binding, y) (Table.mem_of_get? hy)).1
      exact hnodup.2.2 binding (mem_map_of_mem hload) binding (mem_singleton_self _) rfl
    have htable := hs.table hnodup.1
    rw [PassState.loads] at htable
    rw [hrenames, add, hhas, filter_append, ← htable]
    by_cases hsame : binding = name <;> simp [hsame]
  · intro hapart l hl m hm heq
    have hold := hs.apart hapart.of_append
    obtain ⟨hnodup, hlater⟩ := hapart
    rw [map_append, nodup_append] at hnodup
    rcases mem_append.1 hm with hm | hm
    · rcases mem_append.1 hl with hl | hl
      · exact hold l hl m hm heq
      · obtain rfl := mem_singleton.1 hl
        -- an earlier variable has the name of the new import
        rcases hcases with ⟨l, hl, hl'⟩ | hown | hfree
        · exact hold l hl m hm (heq.trans hl'.symm)
        · exact absurd (heq.trans hown.symm)
            (hnodup.2.2 m.1 (mem_map_of_mem hm) binding (mem_singleton_self _))
        · exact absurd ((show m.1 = name from heq) ▸ (hs.used m hm).1) hfree
    · obtain rfl := mem_singleton.1 hm
      rcases mem_append.1 hl with hl | hl
      · -- the new variable has the name of an earlier import
        exact absurd heq ((pairwise_append.1 hlater).2.2 l hl _ (mem_singleton_self _))
      · obtain rfl := mem_singleton.1 hl
        exact heq

/-- Of the variables that become imports, a class says nothing. -/
theorem ClassAt.loaded {kind : VariableKind} {inList alone : Bool} {d : Node}
    {o : Option (List Node)} (h : e.ClassAt kind inList alone d s o s') (hs : s.Loaded) :
    s'.Loaded := by
  have hname {f : Factory} {outside : Refs} {name : Text} {s₁ : PassState}
      (h : nameClass f outside s = .ok (name, s₁)) : s₁.Loaded := by
    obtain ⟨-, rfl⟩ | ⟨-, -, -, rfl⟩ := nameClass_cases h
    · exact hs
    · exact hs.of_eq rfl (fun x hx => Names.mem_insert.2 (.inl hx)) rfl rfl
  cases h with
  | off => exact hs
  | noFactory => exact hs
  | declined hf h => exact hname h
  | rebuilt hclasses hf h =>
    refine (hname h).of_eq ?_ (List.Subset.refl _) rfl rfl
    exact (loads_noting _ _).trans (append_nil _)

theorem Marks.loaded {n n' : Node} (h : e.Marks s n n' s') (hs : s.Loaded) : s'.Loaded := by
  cases h
  exact hs.of_eq rfl (List.Subset.refl _) rfl rfl

end Surroundings

/-! ## The variables of declarators -/

/-- The name that a node is, or that a declarator gives to its variable. -/
def Node.variableName? : Node → Option Text
  | identifier name => some name
  | declarator (identifier name) _ => some name
  | _ => none

/-- A declaration is no variable. -/
theorem Node.variableName?_of_declaresNames {n : Node} (h : n.declaresNames = true) :
    n.variableName? = none := by
  cases n <;> first | rfl | cases h

theorem Renaming.mem_of_isBinding {r : Renaming} {x : Text} (h : r.isBinding x = true) :
    ∃ entry ∈ r.entries, entry.1 = x ∨ entry.2 = x := by
  simpa [isBinding] using h

/-- The name of a settled node is the new one of an identifier, or that of a
    renamed binding. -/
theorem Surroundings.Tidies.variableName? {r : Renaming} {n n' : Node} {x : Text}
    (h : Tidies r n n') (hx : n'.variableName? = some x) :
    (∃ y, n = .identifier y ∧ r.apply y = x) ∨ r.isBinding x = true ∨ n.isDeclarator = true ∧
      n.variableName? = some x := by
  cases h with
  | same hid =>
    unfold Node.variableName? at hx
    split at hx
    · exact absurd rfl (hid _)
    · exact .inr (.inr ⟨rfl, hx⟩)
    · cases hx
  | renamed y => exact .inl ⟨y, rfl, Option.some.inj hx⟩
  | collapsed property computed o hbinding => exact .inr (.inl (Option.some.inj hx ▸ hbinding))
  | unwrapped => cases hx
  | restored => cases hx

/-- An element is no variable. -/
theorem Surroundings.Marks.variableName? {e : Surroundings} {s s' : PassState} {n n' : Node}
    (h : e.Marks s n n' s') : n'.variableName? = none := by
  obtain ⟨h⟩ := h
  have helement := (Dialect.element?_eq_some h).2
  unfold isElement at helement
  split at helement
  · rfl
  · cases helement

/-- One of the statements for a factory declares its class or instance. -/
theorem Factory.exists_declaresNames {f : Factory} {kind : VariableKind} {name : Text}
    {c : RebuiltClass} {ss : List Node} (h : f.toStatements kind name c = some ss) :
    ∃ m ∈ ss, m.declaresNames = true := by
  unfold toStatements at h
  dsimp only at h
  split at h
  · cases h
    exact ⟨_, mem_append_left _ (mem_append_right _ (mem_singleton_self _)), rfl⟩
  · split at h
    · split at h <;> cases h
      exact ⟨.varDecl .., mem_singleton_self _, rfl⟩
    · cases h
      exact ⟨.varDecl .., mem_append_right _ (mem_singleton_self _), rfl⟩

namespace Visit

variable {e : Surroundings} {s s' : PassState} {names : List Text}

/-- A statement that takes the place of a declaration alone is a declaration. -/
theorem InDeclaration.declaresNames {R : Law} {kind : VariableKind} {inList : Bool}
    {done ds ss : List Node} (h : InDeclaration R e kind inList done ds s ss s')
    {m : Node} (hm : ss = [m]) : m.declaresNames = true := by
  have hvariables {ds : List Node} (hm : declaration kind ds = [m]) : m.declaresNames = true := by
    unfold declaration at hm
    split at hm <;> cases hm
    rfl
  induction h with
  | nil => exact hvariables hm
  | @rebuilt done n d rest ss after s s₁ s₂ s' hn first hclass others =>
    cases hclass with
    | rebuilt hclasses hf hname hc hss hplace =>
      obtain ⟨k, hk, hdeclares⟩ := Factory.exists_declaresNames hss
      have hk : k ∈ declaration kind done ++ ss ++ declaration kind after := by simp [hk]
      rw [hm] at hk
      exact mem_singleton.1 hk ▸ hdeclares
  | loaded hn first hclass himport hplace others ih => exact ih hm
  | kept hn first hclass himport others ih => exact ih hm
  | other hn first hsome others ih => exact ih hm
  | empty =>
    cases hm
    rfl

/-- What the state knows of the variables that become imports stays true, and a
    variable that is left is in use. -/
def Loads (names : List Text) : Law := fun _ n s ns s' =>
  s.Reaches s' ∧ (n.names ⊆ names → s.Sound names ∧ s.Loaded →
    s'.Loaded ∧ ∀ m x, ns = [m] → m.variableName? = some x → x ∈ s'.names.used)

/-- What the law promises of a visit is kept with what the state does. -/
theorem Loads.keeps {inList : Bool} {n : Node} {ns : List Node} (h : Loads names inList n s ns s')
    (hn : n.names ⊆ names) (hs : s.Sound names ∧ s.Loaded) : s'.Sound names ∧ s'.Loaded :=
  ⟨h.1.sound hs.1, (h.2 hn hs).1⟩

/-- Beside a class, what the state knows of imports stays true. -/
theorem Beside.loads {ns ds : List Node} (h : Beside (Loads names) ns s ds s')
    (hns : ∀ n ∈ ns, n.names ⊆ names) (hs : s.Sound names ∧ s.Loaded) : s'.Loaded := by
  induction h with
  | nil => exact hs.2
  | @cons n d ns ds s s₁ s' first rest ih =>
    obtain ⟨hsound, hloaded⟩ := first.keeps (hns _ mem_cons_self) hs
    refine ih (fun m hm => hns m (mem_cons_of_mem _ hm))
      ⟨(PassState.Step.note s₁ _).sound hsound, ?_⟩
    exact hloaded.of_eq ((loads_noting _ _).trans (append_nil _)) (List.Subset.refl _) rfl rfl

/-- What the state knows of imports stays true through a declaration. The
    variable of an import is in use, as it was visited. -/
theorem InDeclaration.loads {kind : VariableKind} {inList : Bool} {done ds ss : List Node}
    (h : InDeclaration (Loads names) e kind inList done ds s ss s')
    (hds : ∀ d ∈ ds, d.names ⊆ names) (hs : s.Sound names ∧ s.Loaded) : s'.Loaded := by
  induction h with
  | nil => exact hs.2
  | rebuilt hn first hclass others =>
    obtain ⟨hsound, hloaded⟩ := first.keeps (hds _ mem_cons_self) hs
    refine others.loads (fun d hd => hds d (mem_cons_of_mem _ hd)) ⟨?_, hclass.loaded hloaded⟩
    exact hclass.reaches.sound hsound
  | loaded hn first hclass himport hplace others ih =>
    have hused := (first.2 (hds _ mem_cons_self) hs).2
    obtain ⟨hsound, hloaded⟩ := first.keeps (hds _ mem_cons_self) hs
    refine ih (fun d hd => hds d (mem_cons_of_mem _ hd)) ⟨?_, ?_⟩
    · exact himport.reaches.sound (hclass.reaches.sound hsound)
    · -- the variable of the import has been visited with the declarator, so that it is in use
      have hclassLoaded := hclass.loaded hloaded
      have hgrows := hclass.reaches.grows.names
      cases himport with
      | take hload hname =>
        exact (Surroundings.TakesImport.take hload hname).loaded hclassLoaded
          (hgrows (hused _ _ rfl rfl))
  | @kept done n d rest ns s s₁ s₂ s' hn first hclass himport others ih =>
    obtain ⟨hsound, hloaded⟩ := first.keeps (hds _ mem_cons_self) hs
    refine ih (fun d hd => hds d (mem_cons_of_mem _ hd)) ⟨?_, ?_⟩
    · exact (PassState.Step.note s₂ _).sound (hclass.reaches.sound hsound)
    · refine (hclass.loaded hloaded).of_eq ?_ (List.Subset.refl _) rfl rfl
      exact (loads_noting _ _).trans (append_nil _)
  | other hn first hsome others ih =>
    exact ih (fun d hd => hds d (mem_cons_of_mem _ hd))
      (first.keeps (hds _ mem_cons_self) hs)
  | empty hn first => exact (first.2 (hds _ mem_cons_self) hs).1

/-- The variable of a declarator is in use once the declarator is visited. -/
theorem InFields.variable_mem {n : Node} {slots : List (Slot Node)}
    (h : InFields (Loads names) n.fields s slots s') (hn : n.names ⊆ names)
    (hs : s.Sound names ∧ s.Loaded) {x : Text} (hdeclarator : n.isDeclarator = true)
    (hx : (n.withSlots slots).variableName? = some x) : x ∈ s'.names.used := by
  unfold isDeclarator at hdeclarator
  split at hdeclarator
  · rename_i id init
    cases h with
    | @walked _ _ slot slots _ s₁ _ hf first rest =>
      cases first with
      | @single _ id' _ _ hid =>
        have hchild := mem_children (n := .declarator id init) mem_cons_self hf
          (mem_singleton_self id)
        have hnames : id.names ⊆ names :=
          fun y hy => hn (names_subset_of_mem_children hchild hy)
        have hid' : id'.variableName? = some x := by
          change (declarator id' _).variableName? = some x at hx
          unfold variableName? at hx
          split at hx
          · contradiction
          · rename_i heq
            cases heq
            exact hx
          · cases hx
        exact (rest.origin And.left).1.grows.names ((hid.2 hnames hs).2 id' x rfl hid')
    | kept hf rest => cases hf
  · cases hdeclarator

/-- Every visit keeps what the state knows of imports. A variable that it leaves
    is in use: it is a name of the program or the new name of one, or that of a
    declarator whose parts were visited. -/
theorem ofNode_loads (e : Surroundings) (names : List Text) (n : Node) :
    (ofNode e n).Obeys (Loads names) n := by
  refine ofNode_obeys ?_ ?_ ?_ n
  · intro n inList accepts s s₁ s' slots n' hn hfields hsettle
    have hreach := (hfields.origin And.left).1
    have hsettled := Surroundings.settle_reaches hsettle
    refine ⟨hreach.trans hsettled, fun hnames hs => ?_⟩
    have hchildren : ∀ f ∈ n.fields, f.walked = true → ∀ c ∈ f.slot.nodes, c.names ⊆ names :=
      fun f hf hw c hc x hx => hnames
        (names_subset_of_mem_children (mem_children hf hw hc) hx)
    obtain ⟨hsound, hloaded⟩ := hfields.keeps (fun h => h.keeps) hchildren hs
    obtain ⟨rfl, rfl⟩ | hmarks := Surroundings.settle_cases hsettle
    · refine ⟨hloaded, fun m x hm hx => ?_⟩
      cases hm
      rcases (e.tidies _ _).variableName? hx with ⟨y, hy, rfl⟩ | hbinding | ⟨hdeclarator, hx⟩
      · -- an identifier of the program, which may have a new name
        have hy : y ∈ n.names := by
          have hname := identifierName?_setSlots (fun i => slots.getD i (.single none)) n
          rw [show n.setSlots _ = _ from hy] at hname
          rw [names_eq, ← hname]
          exact mem_append_left _ (mem_singleton_self _)
        unfold apply
        rcases hget : get? _ y with _ | z
        · exact hsound.reserved (hnames hy)
        · exact hsound.replaced (y, z) (Table.mem_of_get? hget)
      · obtain ⟨entry, hentry, rfl | rfl⟩ := mem_of_isBinding hbinding
        · exact (hloaded.used entry (hloaded.renamed entry hentry).1).1
        · exact hsound.replaced entry hentry
      · rw [withSlots, isDeclarator_setSlots] at hdeclarator
        exact hfields.variable_mem hnames hs hdeclarator hx
    · refine ⟨?_, fun m x hm hx => ?_⟩
      · exact hmarks.loaded hloaded
      · cases hm
        rw [hmarks.variableName?] at hx
        cases hx
  · intro kind inList s
    exact ⟨.refl, fun _ hs => ⟨hs.2, fun m x hm hx => by cases hm; cases hx⟩⟩
  · intro kind inList ds ss s s' _ hin
    refine ⟨(hin.origin And.left).1, fun hnames hs => ⟨hin.loads ?_ hs, fun m x hm hx => ?_⟩⟩
    · intro d hd x hx
      have hchild : d ∈ (Node.varDecl kind ds).children :=
        Node.mem_children mem_cons_self rfl (by simpa [Field.list, Slot.nodes] using hd)
      exact hnames (names_subset_of_mem_children hchild hx)
    · rw [variableName?_of_declaresNames (hin.declaresNames hm)] at hx
      cases hx

end Visit

/-! ## Runs -/

namespace Pass.Stage

variable {e : Surroundings} {p q : Stage} {names : List Text}

/-- One visit of a statement keeps what is known of imports. -/
theorem Advances.loads (h : Advances e p q) (hrest : ∀ n ∈ p.rest, n.names ⊆ names)
    (hs : p.state.Sound names ∧ p.state.Loaded) : q.state.Loaded := by
  obtain @⟨done, done', stmt, rest, s, s', h⟩ := h
  obtain ⟨ns, s₁, hns, hcases⟩ := step_cases h
  have hvisit :=
    (((Visit.ofNode_loads e names stmt).spliced hns).2 (hrest _ mem_cons_self) hs).1
  obtain ⟨-, rfl⟩ | ⟨visited, key, binding, remains, declaration, -, -, -, hexported⟩ := hcases
  · exact hvisit
  · cases hexported <;> exact hvisit.of_eq rfl (List.Subset.refl _) rfl rfl

/-- So does a run. -/
theorem Leads.loads (h : Leads e p q) (hrest : ∀ n ∈ p.rest, n.names ⊆ names)
    (hs : p.state.Sound names) (hloaded : p.state.Loaded) : q.state.Loaded := by
  induction h with
  | refl => exact hloaded
  | tail hlead hstep ih =>
    exact hstep.loads (fun n hn => hrest n (Leads.rest_subset hlead hn)) ⟨Leads.sound hlead hs, ih⟩

end Pass.Stage

/-! ## Renaming -/

namespace Renaming

/-- A tree has no `a.default` of a renamed binding `a`, before or after. -/
def Collapsed (r : Renaming) (n : Node) : Prop :=
  ∀ m ∈ n.walk, m.isMemberNamed "default" = true →
    ∀ x, m.receiver? = some (.identifier x) → r.isBinding x = false

variable {r : Renaming} {n : Node}

/-- A tree is collapsed if its root is no `a.default` that could be, and all
    below it is collapsed. -/
theorem collapsed_iff :
    r.Collapsed n ↔ (n.isMemberNamed "default" = true → ∀ x, n.receiver? = some (.identifier x) →
      r.isBinding x = false) ∧ ∀ c ∈ n.children, r.Collapsed c := by
  unfold Collapsed
  rw [walk_eq, forall_mem_cons]
  refine and_congr_right' ⟨fun h c hc m hm => ?_, fun h m hm => ?_⟩
  · exact h m (mem_flatMap.2 ⟨c, hc, hm⟩)
  · obtain ⟨c, hc, hm⟩ := mem_flatMap.1 hm
    exact h c hc m hm

theorem collapsed_identifier (r : Renaming) (x : Text) : r.Collapsed (.identifier x) :=
  collapsed_iff.2 ⟨nofun, nofun⟩

/-- One step of renaming, below which all is renamed already. -/
theorem collapsed_rename? (h : ∀ c ∈ n.children, r.Collapsed c) :
    r.Collapsed ((r.rename? n).getD n) := by
  unfold rename?
  split
  · exact r.collapsed_identifier _
  · rcases hcollapse : r.collapse? _ with _ | m
    · refine collapsed_iff.2 ⟨fun (hdefault : n.isMemberNamed "default" = true) x
        (hx : n.receiver? = _) => ?_, h⟩
      rw [collapse?, if_pos hdefault, hx, Option.filter_eq_none_iff] at hcollapse
      simpa [identifierName?] using hcollapse
    · obtain ⟨x, -, -, -, -, rfl, -⟩ := collapse?_eq_some hcollapse
      exact r.collapsed_identifier x

/-- Renaming leaves no `a.default` of a renamed binding `a`. -/
theorem collapsed_replaceAll (r : Renaming) (n : Node) (nested : Bool) :
    r.Collapsed (n.replaceAll (fun _ => r.rename?) nested) := by
  induction n using induct generalizing nested with
  | h n ih =>
    rw [replaceAll_eq]
    refine collapsed_rename? fun c hc => ?_
    rw [children_withSlots_map] at hc
    obtain ⟨d, hd, rfl⟩ := mem_map.1 hc
    exact ih d (mem_parts_of_mem_children hd) _

theorem collapsed_inStatement (r : Renaming) (n : Node) : r.Collapsed (r.inStatement n) := by
  unfold inStatement
  split
  · rename_i hempty
    intro m _ _ x _
    rw [isBinding, List.isEmpty_iff.1 hempty]
    rfl
  · exact r.collapsed_replaceAll n false

end Renaming

theorem Import.collapsed_declaration (r : Renaming) (i : Import) : r.Collapsed i.declaration := by
  have hname := r.collapsed_identifier i.name
  unfold declaration
  refine collapsed_iff.2 ⟨nofun, forall_mem_singleton.2 ?_⟩
  cases i.kind <;> exact collapsed_iff.2 ⟨nofun, forall_mem_singleton.2 hname⟩

namespace Outcome.Ran

variable {o : Outcome} {program : Node} {body : List Node}

/-- At the end the state knows all imports, if no display names are given. -/
theorem loaded (h : o.Ran program body) (hdisplay : o.surroundings.config.displayNames = false) :
    o.state.Loaded := by
  have hstart : Pass.start o.surroundings program body = { names := Names.ofProgram program } := by
    rw [Pass.start, hdisplay]
    rfl
  refine Pass.Stage.Leads.loads h.leads (fun n hn => h.names_subset hn) (Pass.start_sound _ _ _) ?_
  rw [hstart]
  exact ⟨nofun, nofun, nofun, fun _ => rfl, nofun⟩

theorem collapsed (h : o.Ran program body) : o.state.renames.Collapsed o.program := by
  refine collapsed_iff.2 ⟨fun hdefault => ?_, fun c hc => ?_⟩
  · rw [h.program_eq] at hdefault
    obtain rfl | rfl | rfl := statements_cases h.statements <;> cases hdefault
  · rw [h.program_eq, children_withStatements h.statements, Pass.mem_splice] at hc
    rcases hc with hc | hc
    · obtain ⟨i, -, rfl⟩ := mem_map.1 hc
      exact i.collapsed_declaration _
    · obtain ⟨m, -, rfl⟩ := h.exists_of_mem_kept hc
      exact o.state.renames.collapsed_inStatement m

end Outcome.Ran

/-- If the variables that become imports have different names, none of which is
    the name of an import before, then the renaming is complete: all that get
    another name are in the table, no variable gets the name that another one
    had, none of those names is left in the program, and `a.default` is left of
    no renamed binding `a`. -/
theorem renamed_everywhere {config : Config} {program : Node} {o : Outcome}
    (hdisplay : config.displayNames = false) (h : reconstruct config program = .ok o)
    (hdistinct : (o.state.loads.map Prod.fst).Nodup)
    (hapart : o.state.loads.Pairwise fun earlier later => later.1 ≠ earlier.2) :
    o.state.renames.entries = (o.state.loads.filter fun l => l.1 ≠ l.2) ∧
      (∀ old ∈ o.state.renames.entries, ∀ new ∈ o.state.renames.entries, old.1 ≠ new.2) ∧
        (∀ x ∈ o.program.names, o.state.renames.has x = false) ∧
          ∀ n ∈ o.program.walk, n.isMemberNamed "default" = true →
            ∀ x, n.receiver? = some (.identifier x) → o.state.renames.isBinding x = false := by
  obtain ⟨body, hran⟩ := reconstruct_ran h
  have hloaded := hran.loaded (by rw [reconstruct_config h]; exact hdisplay)
  -- the name that a variable gets is never that of a renamed one
  have hnew : ∀ l ∈ o.state.loads, ∀ old ∈ o.state.renames.entries, old.1 ≠ l.2 := by
    intro l hl old hold heq
    obtain ⟨hload, hne⟩ := hloaded.renamed old hold
    exact hne (hloaded.apart ⟨hdistinct, hapart⟩ l hl old hload heq)
  have hhas : ∀ l ∈ o.state.loads, o.state.renames.has l.2 = false := by
    intro l hl
    rw [has, Option.isSome_eq_false_iff, Option.isNone_iff_eq_none]
    by_contra hsome
    obtain ⟨y, hy⟩ := Option.ne_none_iff_exists'.1 hsome
    exact hnew l hl (l.2, y) (Table.mem_of_get? hy) rfl
  refine ⟨hloaded.table hdistinct, fun old hold new hnew' => ?_, fun x hx => ?_, hran.collapsed⟩
  · exact hnew new (hloaded.renamed new hnew').1 old hold
  rcases hran.mem_names.1 hx with hx | ⟨n, hn, hx⟩
  · obtain ⟨i, hi, rfl⟩ := mem_map.1 hx
    obtain ⟨l, hl, hname⟩ := hloaded.imported i ((Pass.distinct_sublist hran.adds).subset hi)
    exact hname ▸ hhas l hl
  · let V : Vocabulary := ⟨fun x => o.state.renames.has x = false, fun _ => True⟩
    have hwalked : ∀ m ∈ o.walked, m.Speaks (V.before o.state.renames) true := by
      intro m _
      exact ⟨fun _ x _ => Bool.eq_false_or_eq_true _ |>.symm, fun _ _ => trivial⟩
    have hspeaks := Pass.renamed_speak (e := o.surroundings) (V := V)
      (fun entry hentry => hhas entry (hloaded.renamed entry hentry).1) hwalked
    exact (hspeaks n ((Pass.mem_dropHelpers hran.drops).1 hn)).1 rfl x hx

/-- `function _interopRequireDefault() {}` and `var _b =
    _interopRequireDefault(require("b")), b = require("c"); _b.default(b);` -/
def twoLoads : Node :=
  .program [namedFunction "_interopRequireDefault" [],
    .varDecl .var [
      .declarator (.identifier "_b") (some (.call (.identifier "_interopRequireDefault")
        [.call (.identifier "require") [.literal (.string "b") none] false] false)),
      .declarator (.identifier "b")
        (some (.call (.identifier "require") [.literal (.string "c") none] false))],
    .exprStmt (.call (.member (.identifier "_b") (.identifier "default") false false)
      [.identifier "b"] false)]

/-- Both variables would get `B`; the second gets `B2`: `B(B2)` is left. -/
theorem renamed_everywhere_twoLoads :
    ∃ o, reconstruct { displayNames := false } twoLoads = .ok o ∧
      o.state.loads = ([("_b", "B"), ("b", "B2")] : List (Text × Text)) ∧
        o.state.renames.entries = ([("_b", "B"), ("b", "B2")] : List (Text × Text)) ∧
          (∀ old ∈ o.state.renames.entries, ∀ new ∈ o.state.renames.entries, old.1 ≠ new.2) ∧
            (∀ x ∈ o.program.names, o.state.renames.has x = false) ∧
              ∀ n ∈ o.program.walk, n.isMemberNamed "default" = true →
                ∀ x, n.receiver? = some (.identifier x) → o.state.renames.isBinding x = false := by
  obtain ⟨o, ho, hloads⟩ : ∃ o, reconstruct { displayNames := false } twoLoads = .ok o ∧
      o.state.loads = ([("_b", "B"), ("b", "B2")] : List (Text × Text)) :=
    exists_outcome (by decide +kernel)
  obtain ⟨htable, hrest⟩ := renamed_everywhere rfl ho (by rw [hloads]; decide)
    (by rw [hloads]; decide)
  refine ⟨o, ho, hloads, ?_, hrest⟩
  rw [htable, hloads]
  decide

end Resugar
