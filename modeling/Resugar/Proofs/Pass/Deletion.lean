import Resugar.Proofs.Pass.Tags

/-!
# Deleted definitions

A pass deletes a variable when it exports its value, and a function that made
markup or wrapped loads when nothing calls it any more (`Outcome.Deletes`). In
both cases it counts the identifiers with the name first, but not the names of
elements, nor those of the imports that are still to be added. So a deleted name
is gone if and only if no import has it and no visit leaves an element that has
it, but for names that the pass gives itself.
-/

namespace Resugar

open Node List

/-- The vocabulary of trees without a given name. -/
def Vocabulary.without (x : Text) : Vocabulary :=
  ⟨(· ≠ x), fun _ => True⟩

namespace Node

theorem speaks_without {x : Text} {n : Node} : n.Speaks (Vocabulary.without x) true ↔ x ∉ n.names :=
  ⟨fun h hx => h.1 rfl x hx rfl, fun h => ⟨fun _ _ hy heq => h (heq ▸ hy), fun _ _ => trivial⟩⟩

theorem names_varDecl (kind : VariableKind) (ds : List Node) :
    (varDecl kind ds).names = ds.flatMap names := by
  have hnodes : (Slot.list (ds.map some)).nodes = ds := by simp [Slot.nodes]
  rw [names_eq]
  simp [identifierName?, children, Field.list, Field.walkedNodes, hnodes]

theorem names_declarator (id init : Node) :
    (declarator id (some init)).names = id.names ++ init.names := by
  rw [names_eq]
  simp [identifierName?, children, Field.single, Field.walkedNodes, Slot.nodes]

/-- The name of a function declaration is a name in it. -/
theorem mem_names_functionDecl {x : Text} {params : List Node} {body : Node}
    {isAsync isGenerator : Bool} :
    x ∈ (functionDecl (some (identifier x)) params body isAsync isGenerator).names := by
  rw [names_eq]
  simp [identifierName?, children, Field.single, Field.walkedNodes, Slot.nodes, names_identifier]

end Node

/-! ## Counting -/

namespace Refs

variable {ns : List Node} {n m : Node} {x : Text}

theorem ofNodes_eq (ns : List Node) (x : Text) :
    ofNodes ns x = (ns.flatMap names).count x := by
  induction ns with
  | nil => rfl
  | cons n ns ih =>
    rw [flatMap_cons, count_append, ← ih]
    rfl

/-- Where a name is met once, it stands in one statement only. -/
theorem not_mem_of_ofNodes_eq_one (h : ofNodes ns x = 1) (hn : n ∈ ns) (hx : x ∈ n.names)
    (hm : m ∈ ns) (hne : m ≠ n) : x ∉ m.names := by
  intro hxm
  obtain ⟨before, after, rfl⟩ := append_of_mem hn
  have hm : m ∈ before ∨ m ∈ after := by
    rcases mem_append.1 hm with hm | hm
    · exact .inl hm
    · exact .inr ((mem_cons.1 hm).resolve_left hne)
  have hcount : 0 < n.names.count x := count_pos_iff.2 hx
  have hothers : 0 < (before.flatMap names).count x + (after.flatMap names).count x := by
    rcases hm with hm | hm
    · exact Nat.add_pos_left (count_pos_iff.2 (mem_flatMap.2 ⟨m, hm, hxm⟩)) _
    · exact Nat.add_pos_right _ (count_pos_iff.2 (mem_flatMap.2 ⟨m, hm, hxm⟩))
  rw [ofNodes_eq, flatMap_append, flatMap_cons, count_append, count_append] at h
  omega

end Refs

namespace Pass

variable {e : Surroundings} {s : PassState} {done rest remains : List Node}
  {stmt init : Node} {key x : Text}

/-- The definition and the export of a deleted variable hold the only
    identifiers with its name. -/
theorem Moves.absent (h : Moves s done stmt rest key x remains init)
    (hstmt : stmt.exportAssignment? = some (key, x)) :
    (∀ n ∈ remains, x ∉ n.names) ∧ x ∉ init.names ∧ ∀ n ∈ rest, x ∉ n.names := by
  obtain ⟨ss, kind, before, after, ts, rfl, hremains⟩ := h.split
  have hexport : 0 < stmt.names.count x :=
    count_pos_iff.2 (exportAssignment?_speaks (V := ⟨(· ∈ stmt.names), fun _ => True⟩)
      hstmt ⟨fun _ _ hy => hy, fun _ _ => trivial⟩)
  have hfew := h.few
  rw [Refs.ofNodes_eq] at hfew
  simp only [flatMap_append, flatMap_cons, count_append, names_varDecl,
    names_declarator, names_identifier, count_singleton_self] at hfew
  have hzero {ns : List Node} (hns : (ns.flatMap names).count x = 0) : ∀ n ∈ ns, x ∉ n.names :=
    fun n hn hx => count_eq_zero.1 hns (mem_flatMap.2 ⟨n, hn, hx⟩)
  refine ⟨fun n hn => ?_, count_eq_zero.1 (by omega), hzero (by omega)⟩
  rcases hremains n hn with hn | rfl | hn
  · exact hzero (by omega) n hn
  · rw [names_varDecl, flatMap_append]
    exact count_eq_zero.1 (by rw [count_append]; omega)
  · exact hzero (by omega) n hn

/-! ## Deleted variables -/

namespace Stage

variable {p q : Stage} {names : List Text}

/-- The next statement is visited, and exports a variable that is deleted. -/
inductive Extracts (e : Surroundings) (key x : Text) : Stage → Stage → Prop
  | visit {done rest remains : List Node} {stmt visited init : Node} {s s₁ : PassState}
    (hvisit : (Visit.ofNode e stmt).spliced false
      ((Refs.ofNodes done).plus (Refs.ofNodes rest)) s = .ok ([visited], s₁))
    (hexport : visited.exportAssignment? = some (key, x))
    (hmoves : Moves s₁ done visited rest key x remains init)
    (exported : List Text) (tally : Tally) :
    Extracts e key x ⟨done, stmt :: rest, s⟩
      ⟨remains ++ [exportValue key (movedValue s₁.renames init)], rest,
        { s₁ with exported, tally, extracted := s₁.extracted ++ [(key, x)] }⟩

/-- A variable that is exported with its value was so before the next visit, or
    becomes so in it. -/
theorem Advances.extracts (h : Advances e p q) (hentry : (key, x) ∈ q.state.extracted) :
    (key, x) ∈ p.state.extracted ∨ Extracts e key x p q := by
  obtain @⟨done, done', stmt, rest, s, s', h⟩ := h
  obtain ⟨ns, s₁, hns, hcases⟩ := step_cases h
  have hkept := ((Visit.ofNode_visits e stmt).spliced hns).1.extracted_eq
  obtain ⟨-, rfl⟩ | ⟨visited, key', x', remains, declaration, rfl, hexport, rfl, hexported⟩ :=
    hcases
  · exact .inl (hkept ▸ hentry)
  · cases hexported with
    | bound exported => exact .inl (hkept ▸ hentry)
    | moved hmoves exported =>
      rcases mem_append.1 hentry with hentry | hentry
      · exact .inl (hkept ▸ hentry)
      · obtain ⟨rfl, rfl⟩ := Prod.mk.inj (mem_singleton.1 hentry)
        exact .inr (.visit hns hexport hmoves exported _)

/-- A variable that is deleted in a run is deleted at some stage. -/
theorem Leads.extracts (h : Leads e p q) (hentry : (key, x) ∈ q.state.extracted) :
    (key, x) ∈ p.state.extracted ∨ ∃ a b, Leads e p a ∧ Extracts e key x a b ∧ Leads e b q := by
  induction h with
  | refl => exact .inl hentry
  | @tail q r hlead hstep ih =>
    rcases hstep.extracts hentry with hentry | hextracts
    · refine (ih hentry).imp_right fun ⟨a, b, ha, hab, hb⟩ => ⟨a, b, ha, hab, hb.tail hstep⟩
    · exact .inr ⟨q, r, hlead, hextracts, .refl⟩

/-- The name of a deleted variable is reserved: a visit finds or reserves all
    names but `undefined`. -/
theorem Extracts.reserved (h : Extracts e key x p q) (hs : p.state.Sound names)
    (hrest : ∀ n ∈ p.rest, n.names ⊆ names) : x ∈ q.state.names.used ∨ x = "undefined" := by
  obtain @⟨done, rest, remains, stmt, visited, init, s, s₁, hvisit, hexport,
    hmoves, exported, tally⟩ := h
  have hstmt :=
    ((Visit.ofNode_visits e stmt).spliced hvisit).inUse hs (hrest stmt mem_cons_self)
  exact exportAssignment?_speaks hexport (hstmt visited (mem_singleton_self _))

/-- No statement has the name of the variable, unless that is exported. -/
theorem Extracts.absent (h : Extracts e key x p q) (hkey : key = defaultKey ∨ key ≠ x)
    (hgiven : ∀ entry ∈ q.state.renames.entries, entry.2 ≠ x) :
    (∀ n ∈ q.done, x ∉ n.names) ∧ ∀ n ∈ q.rest, x ∉ n.names := by
  obtain @⟨done, rest, remains, stmt, visited, init, s, s₁, hvisit, hexport,
    hmoves, exported, tally⟩ := h
  obtain ⟨hremains, hinit, hrest⟩ := hmoves.absent hexport
  refine ⟨forall_mem_append.2 ⟨hremains, forall_mem_singleton.2 ?_⟩, hrest⟩
  have hvalue := movedValue_speaks hgiven (speaks_without.2 hinit)
  exact speaks_without.1 (exportValue_speaks hkey.resolve_left hvalue)

end Stage

end Pass

namespace Outcome

/-- A definition is deleted in a pass. -/
inductive Deletes (o : Outcome) (x : Text) : Prop
  /-- The value of a variable is exported under another name, or as the
      default. -/
  | extracted {key : Text} (h : (key, x) ∈ o.state.extracted)
    (hkey : key = defaultKey ∨ key ≠ x)
  /-- A function is not needed any more. -/
  | dropped {params : List Node} {body : Node} {isAsync isGenerator : Bool}
    (h : .functionDecl (some (.identifier x)) params body isAsync isGenerator ∈
      Pass.renamed o.surroundings o.state o.walked)
    (hkept : .functionDecl (some (.identifier x)) params body isAsync isGenerator ∉ o.kept)

namespace Ran

variable {o : Outcome} {program : Node} {body : List Node} {x : Text}

/-- Nothing brings back the name of a deleted variable. -/
theorem absent_of_extracted (h : o.Ran program body) (hgives : ¬o.Gives x) {key : Text}
    (hx : (key, x) ∈ o.state.extracted) (hkey : key = defaultKey ∨ key ≠ x) :
    ∀ n ∈ o.kept, x ∉ n.names := by
  obtain ⟨hundefined, hgiven⟩ := not_or.1 hgives
  have hgiven : ∀ entry ∈ o.state.renames.entries, entry.2 ≠ x :=
    fun entry hentry heq => hgiven ⟨entry, hentry, heq⟩
  rcases Pass.Stage.Leads.extracts h.leads hx with hstart | ⟨a, b, ha, hab, hb⟩
  · rw [Pass.extracted_start] at hstart
    cases hstart
  · have hsound := Pass.Stage.Leads.sound ha (Pass.start_sound _ _ _)
    have hrest : ∀ n ∈ a.rest, n.names ⊆ program.names := fun n hn =>
      h.names_subset (Pass.Stage.Leads.rest_subset ha hn)
    have hreserved := (hab.reserved hsound hrest).resolve_right hundefined
    have hgrows := Pass.Stage.Leads.grows hb
    obtain ⟨hdone, hrest⟩ :=
      hab.absent hkey fun entry hentry => hgiven entry (hgrows.renames.subset hentry)
    -- from here on the name is reserved, so no visit and no export declares it anew
    have hV : (Vocabulary.without x).Admits b.state o.state :=
      ⟨hgiven, fun y _ hunused _ heq => hunused (heq ▸ hreserved), Ne.symm hundefined,
        fun _ _ _ _ _ _ _ => trivial⟩
    have hwalked : ∀ n ∈ o.walked, n.Speaks (Vocabulary.without x) true := by
      refine Pass.Stage.Leads.speak hb hV
        (fun entry _ hunused heq => hunused (heq ▸ hreserved)) ?_ ?_
      · exact fun n hn => speaks_without.2 (hdone n hn)
      · exact fun n hn => (speaks_without.2 (hrest n hn)).mono (fun _ => .inl) fun _ => id
    intro n hn
    refine speaks_without.1
      (Pass.renamed_speak hgiven ?_ n ((Pass.mem_dropHelpers h.drops).1 hn))
    exact fun m hm => (hwalked m hm).mono (fun _ => .inl) fun _ => id

/-- A function goes only where nothing else has its name. -/
theorem absent_of_dropped (h : o.Ran program body) {params : List Node} {block : Node}
    {isAsync isGenerator : Bool}
    (hf : .functionDecl (some (.identifier x)) params block isAsync isGenerator ∈
      Pass.renamed o.surroundings o.state o.walked)
    (hkept : .functionDecl (some (.identifier x)) params block isAsync isGenerator ∉ o.kept) :
    ∀ n ∈ o.kept, x ∉ n.names := by
  obtain ⟨name, hname, hcontains⟩ := bind_eq_ok.1 ((Pass.mem_dropHelpers h.drops).2 hf hkept)
  cases hname
  have hunused := contains_iff_mem.1 (Except.ok.inj hcontains)
  have hone := eq_of_beq (mem_filter.1 hunused).2
  intro n hn
  refine Refs.not_mem_of_ofNodes_eq_one hone hf ?_ ((Pass.mem_dropHelpers h.drops).1 hn)
    (ne_of_mem_of_not_mem hn hkept)
  exact mem_names_functionDecl

end Ran

end Outcome

/-- A deleted name occurs nowhere in the program if and only if no import has it
    and no visit leaves an element that has it, in a statement that stays, for
    one of the reasons that there are; a name that the pass writes by itself
    must not stand in the kept statements either. -/
theorem deleted_name_absent_iff {config : Config} {program : Node} {o : Outcome}
    (h : reconstruct config program = .ok o) {x : Text} (hx : o.Deletes x) :
    (x ∉ o.program.names ∧ ∀ tag ∈ o.program.tags, tag.firstSegment ≠ x) ↔
      x ∉ o.added.map Import.name ∧
        (∀ v ∈ o.visits program, ∀ n ∈ v.left, o.drops n = false →
          ∀ tag ∈ n.tags, o.MayKeep program v x tag → tag.firstSegment ≠ x) ∧
        (o.Gives x → ∀ n ∈ o.kept, x ∉ n.names) := by
  obtain ⟨body, hran⟩ := reconstruct_ran h
  rw [hran.mem_names, not_or, ← hran.tag_absent_iff]
  constructor
  · rintro ⟨⟨himport, hkept⟩, htags⟩
    exact ⟨himport, htags, fun _ n hn hmem => hkept ⟨n, hn, hmem⟩⟩
  · rintro ⟨himport, htags, hgives⟩
    refine ⟨⟨himport, fun ⟨n, hn, hmem⟩ => ?_⟩, htags⟩
    cases hx with
    | extracted hextracted hkey =>
      by_cases hgiven : o.Gives x
      · exact hgives hgiven n hn hmem
      · exact hran.absent_of_extracted hgiven hextracted hkey n hn hmem
    | dropped hf hkept => exact hran.absent_of_dropped hf hkept n hn hmem

/-- `var Box = make(); function App() { return React.createElement(tag, null); }
    exports.default = Box;` -/
def boxExported (tag : Text) : Node :=
  .program [.varDecl .var [.declarator (.identifier "Box")
    (some (.call (.identifier "make") [] false))],
    namedFunction "App" [.returnStmt (some (.call
      (.member (.identifier "React") (.identifier "createElement") false false)
      [.identifier tag, .literal .null none] false))],
    .exprStmt (.assignment "="
      (.member (.identifier "exports") (.identifier "default") false false) (.identifier "Box"))]

/-- The name of an exported value is gone if the element has another name. -/
theorem deleted_name_absent_iff_boxExported :
    ∃ o, reconstruct {} (boxExported "Main") = .ok o ∧ o.Deletes "Box" ∧
      Text.ofString "Box" ∉ o.program.names ∧ ∀ tag ∈ o.program.tags, tag.firstSegment ≠ "Box" := by
  let P (o : Outcome) : Prop := (defaultKey, Text.ofString "Box") ∈ o.state.extracted ∧
    Text.ofString "Box" ∉ o.added.map Import.name ∧
      (∀ v ∈ o.visits (boxExported "Main"), ∀ n ∈ v.left, o.drops n = false →
        ∀ tag ∈ n.tags, tag.firstSegment ≠ "Box") ∧
      ∀ entry ∈ o.state.renames.entries, entry.2 ≠ Text.ofString "Box"
  have hP : ∃ o, reconstruct {} (boxExported "Main") = .ok o ∧ P o :=
    exists_outcome (by decide +kernel)
  obtain ⟨o, ho, hextracted, himport, hleft, hgiven⟩ := hP
  have hdeletes : o.Deletes "Box" := .extracted hextracted (.inl rfl)
  refine ⟨o, ho, hdeletes, (deleted_name_absent_iff ho hdeletes).2 ⟨himport, ?_, fun hgives => ?_⟩⟩
  · exact fun v hv n hn hdrops tag htag _ => hleft v hv n hn hdrops tag htag
  · rcases hgives with heq | ⟨entry, hentry, heq⟩
    · exact absurd heq (by decide)
    · exact absurd heq (hgiven entry hentry)

/-- An element made of a variable does not keep that from being deleted. -/
theorem deleted_name_in_element :
    ∃ o, reconstruct {} (boxExported "Box") = .ok o ∧ o.Deletes "Box" ∧
      ∃ tag ∈ o.program.tags, tag.firstSegment = "Box" := by
  let P (o : Outcome) : Prop := (defaultKey, Text.ofString "Box") ∈ o.state.extracted ∧
    ∃ tag ∈ o.program.tags, tag.firstSegment = Text.ofString "Box"
  have hP : ∃ o, reconstruct {} (boxExported "Box") = .ok o ∧ P o :=
    exists_outcome (by decide +kernel)
  obtain ⟨o, ho, hextracted, htag⟩ := hP
  exact ⟨o, ho, .extracted hextracted (.inl rfl), htag⟩

end Resugar
