import Resugar.Proofs.Pass.DisplayNames

/-!
# Default imports

A module that is loaded is an object with what it exports by default as its
property `default`, and a module that is imported by default is the export
itself. So where the variable `a` of a load becomes an import, `a.default` has
to become `a`. A pass sees to this by its table of new names, which has only
variables that get another name. If a variable already has the name of its
future import, then `a.default` is left as it is, and means something else.
-/

namespace Resugar

open List

/-! ## Trees without `a.default` -/

namespace Node

variable {n : Node} {x : Text}

/-- A tree has no `x.default`. -/
def LacksDefault (x : Text) (n : Node) : Prop :=
  ∀ m ∈ n.walk, ¬m.IsDefaultOf x

theorem lacksDefault_iff :
    n.LacksDefault x ↔ ¬n.IsDefaultOf x ∧ ∀ c ∈ n.children, c.LacksDefault x := by
  unfold LacksDefault
  rw [walk_eq, forall_mem_cons, forall_mem_flatMap]

theorem isDefaultOf_member {receiver property : Node} {computed o : Bool} :
    (member receiver property computed o).IsDefaultOf x ↔
      property.propertyName? computed = some (Text.ofString "default") ∧
      receiver = identifier x := by
  unfold IsDefaultOf
  exact and_congr beq_iff_eq (by rw [receiver?, Option.some.injEq])

/-- Only a member counts itself. -/
theorem lacksDefault_iff_children (hn : n.receiver? = none) :
    n.LacksDefault x ↔ ∀ c ∈ n.children, c.LacksDefault x := by
  rw [lacksDefault_iff]
  refine and_iff_right fun h => ?_
  rw [h.2] at hn
  cases hn

theorem lacksDefault_of_not_mem (h : x ∉ n.names) : n.LacksDefault x :=
  fun _ hm hx => h (names_subset_of_mem_walk hm
    (names_of_isDefaultOf hx ▸ mem_singleton_self x))

theorem lacksDefault_identifier (x y : Text) : (identifier y).LacksDefault x :=
  (lacksDefault_iff_children rfl).2 (forall_mem_nil _)

theorem lacksDefault_varDecl {kind : VariableKind} {ds : List Node} :
    (varDecl kind ds).LacksDefault x ↔ ∀ d ∈ ds, d.LacksDefault x := by
  have hchildren : (varDecl kind ds).children = ds := by
    simp [children, Field.list, Field.walkedNodes, Slot.nodes]
  rw [lacksDefault_iff_children rfl, hchildren]

theorem lacksDefault_declarator {id init : Node} :
    (declarator id (some init)).LacksDefault x ↔ id.LacksDefault x ∧ init.LacksDefault x := by
  have hchildren : (declarator id (some init)).children = [id, init] := rfl
  rw [lacksDefault_iff_children rfl, hchildren, forall_mem_cons, forall_mem_singleton]

theorem lacksDefault_exportDefault : (exportDefault n).LacksDefault x ↔ n.LacksDefault x := by
  have hchildren : (exportDefault n).children = [n] := rfl
  rw [lacksDefault_iff_children rfl, hchildren, forall_mem_singleton]

/-- An export of a value has no `x.default` besides those of the value. -/
theorem lacksDefault_exportValue (key : Text) (h : n.LacksDefault x) :
    (exportValue key n).LacksDefault x := by
  unfold exportValue
  split
  · exact lacksDefault_exportDefault.2 h
  · have hdeclarator := lacksDefault_declarator.2 ⟨lacksDefault_identifier x key, h⟩
    refine (lacksDefault_iff_children rfl).2 (forall_mem_singleton.2 ?_)
    exact lacksDefault_varDecl.2 (forall_mem_singleton.2 hdeclarator)

theorem lacksDefault_exportBinding (key binding : Text) :
    (exportBinding key binding).LacksDefault x := by
  have hbinding := lacksDefault_identifier x binding
  unfold exportBinding
  split
  · exact lacksDefault_exportDefault.2 hbinding
  · refine (lacksDefault_iff_children rfl).2 (forall_mem_singleton.2 ?_)
    exact (lacksDefault_iff_children rfl).2 (forall_mem_singleton.2 hbinding)

end Node

theorem Import.lacksDefault_declaration (i : Import) (x : Text) : i.declaration.LacksDefault x := by
  have hname := Node.lacksDefault_identifier x i.name
  unfold declaration
  refine (Node.lacksDefault_iff_children rfl).2 (forall_mem_singleton.2 ?_)
  cases i.kind <;> exact (Node.lacksDefault_iff_children rfl).2 (forall_mem_singleton.2 hname)

/-! ## Renaming -/

namespace Renaming

open Node

variable {r : Renaming} {n : Node} {x : Text}

/-- A name outside of a table is neither an old name nor a new one there. -/
theorem ne_of_isBinding_eq_false (hx : r.isBinding x = false) {entry : Text × Text}
    (hentry : entry ∈ r.entries) : entry.1 ≠ x ∧ entry.2 ≠ x := by
  simpa using any_eq_false.1 hx entry hentry

theorem isBinding_eq_false_of_prefix {r' : Renaming} (h : r.entries <+: r'.entries)
    (hx : r'.isBinding x = false) : r.isBinding x = false :=
  any_eq_false.2 fun entry hentry => any_eq_false.1 hx entry (h.subset hentry)

theorem apply_eq_iff (hx : r.isBinding x = false) {y : Text} : r.apply y = x ↔ y = x := by
  constructor
  · rintro rfl
    exact (r.apply_cases y).elim Eq.symm fun hentry =>
      absurd rfl (ne_of_isBinding_eq_false hx hentry).2
  · rintro rfl
    exact (r.apply_cases y).elim id fun hentry => absurd rfl (ne_of_isBinding_eq_false hx hentry).1

/-- A name that is not in the table stands where it stood before. -/
theorem rename?_eq_identifier (hx : r.isBinding x = false) :
    (r.rename? n).getD n = identifier x ↔ n = identifier x := by
  rcases hname : n.identifierName? with _ | y
  · rw [rename?_of_identifierName? hname]
    rcases hcollapse : r.collapse? n with _ | m
    · rfl
    · obtain ⟨y, -, hbinding, rfl⟩ := collapse?_eq_some_iff.1 hcollapse
      constructor
      · intro heq
        rw [identifier.inj heq, hx] at hbinding
        cases hbinding
      · rintro rfl
        cases hname
  · obtain rfl := identifierName?_eq_some.1 hname
    change identifier (r.apply y) = identifier x ↔ _
    rw [identifier.injEq, identifier.injEq, apply_eq_iff hx]

/-- Only the name itself becomes the name. -/
theorem rewrite_eq_identifier (hx : r.isBinding x = false) :
    n.rewrite r.rename? = identifier x ↔ n = identifier x := by
  rw [rewrite_eq, rename?_eq_identifier hx, ← identifierName?_eq_some, identifierName?_withSlots,
    identifierName?_eq_some]

/-- A property that is a text is left as it is, and no other becomes one. -/
theorem propertyName?_rewrite (r : Renaming) (property : Node) (computed : Bool) :
    (if computed then property.rewrite r.rename? else property).propertyName? computed =
      property.propertyName? computed := by
  cases computed with
  | false => rfl
  | true =>
    rw [if_pos rfl, rewrite_eq]
    rcases hname : property.identifierName? with _ | y
    · rw [rename?_of_identifierName? ((identifierName?_withSlots _).trans hname)]
      rcases hcollapse : r.collapse? _ with _ | m
      · cases property <;> rfl
      · obtain ⟨y, property', computed, o, heq, rfl, -⟩ := collapse?_eq_some hcollapse
        cases property <;> first | rfl | cases heq
    · obtain rfl := identifierName?_eq_some.1 hname
      rfl

/-- A renaming below a node makes it `x.default` only if it was. -/
theorem isDefaultOf_withSlots (hx : r.isBinding x = false) :
    (n.withSlots (n.slotsMap (rewrite r.rename?))).IsDefaultOf x ↔ n.IsDefaultOf x := by
  cases n with
  | member receiver property computed o =>
    have hslots : (member receiver property computed o).withSlots
        ((member receiver property computed o).slotsMap (rewrite r.rename?)) =
          member (receiver.rewrite r.rename?)
        (if computed then property.rewrite r.rename? else property) computed o := by
      cases computed <;> rfl
    rw [hslots, isDefaultOf_member, isDefaultOf_member, propertyName?_rewrite,
      rewrite_eq_identifier hx]
  | _ => exact Iff.rfl

/-- Renaming neither brings nor takes `x.default` unless the table has `x`. -/
theorem lacksDefault_rewrite (hx : r.isBinding x = false) :
    (n.rewrite r.rename?).LacksDefault x ↔ n.LacksDefault x := by
  induction n using Node.induct with
  | h n ih =>
    have hchildren : (∀ c ∈ (n.withSlots (n.slotsMap (rewrite r.rename?))).children,
        c.LacksDefault x) ↔ ∀ c ∈ n.children, c.LacksDefault x := by
      rw [slotsMap, children_withSlots_map, forall_mem_map]
      exact forall₂_congr fun c hc => ih c (mem_parts_of_mem_children hc)
    have hbelow : (n.withSlots (n.slotsMap (rewrite r.rename?))).LacksDefault x ↔
        n.LacksDefault x := by
      rw [lacksDefault_iff, hchildren, isDefaultOf_withSlots hx, ← lacksDefault_iff]
    rw [rewrite_eq, ← hbelow]
    generalize n.withSlots (n.slotsMap (rewrite r.rename?)) = n'
    rcases hname : n'.identifierName? with _ | y
    · rw [rename?_of_identifierName? hname]
      rcases hcollapse : r.collapse? n' with _ | m
      · rfl
      · -- what becomes a variable was its property `default`, and the variable is another one
        obtain ⟨y, hdefault, hbinding, rfl⟩ := collapse?_eq_some_iff.1 hcollapse
        refine iff_of_true (lacksDefault_identifier x y) (lacksDefault_of_not_mem ?_)
        rw [names_of_isDefaultOf hdefault, mem_singleton]
        rintro rfl
        exact Bool.false_ne_true (hx.symm.trans hbinding)
    · obtain rfl := identifierName?_eq_some.1 hname
      exact iff_of_true (lacksDefault_identifier x _) (lacksDefault_identifier x y)

end Renaming

/-! ## Runs -/

namespace Pass

variable {e : Surroundings} {x : Text}

/-- A value that moves into an export gets no `x.default` on the way. -/
theorem movedValue_lacksDefault {r : Renaming} {init : Node} (hx : r.isBinding x = false)
    (h : init.LacksDefault x) : (movedValue r init).LacksDefault x := by
  rcases hname : init.identifierName? with _ | y
  · have hid (y : Text) : init ≠ .identifier y := by
      rintro rfl
      cases hname
    rw [movedValue_eq_inStatement r hid, Renaming.inStatement_eq]
    exact (Renaming.lacksDefault_rewrite hx).2 h
  · obtain rfl := Node.identifierName?_eq_some.1 hname
    unfold movedValue Renaming.sweep
    split <;> exact Node.lacksDefault_identifier x _

namespace Stage

variable {p q : Stage}

/-- An export declaration brings no `x.default`, though it may declare `x`. -/
theorem Advances.lacksDefault (h : Advances e p q)
    (hV : (Vocabulary.without x).Admits p.state q.state) (hx : q.state.renames.isBinding x = false)
    (hdone : ∀ n ∈ p.done, n.LacksDefault x) (hrest : ∀ n ∈ p.rest, x ∉ n.names) :
    ∀ n ∈ q.done, n.LacksDefault x := by
  obtain @⟨done, done', stmt, rest, s, s', h⟩ := h
  obtain ⟨ns, s₁, hns, hcases⟩ := step_cases h
  obtain ⟨-, hspeak⟩ := (Visit.ofNode_visits e stmt).spliced hns
  have hstmt : stmt.Speaks ((Vocabulary.without x).before s.renames) true :=
    (Node.speaks_without.2 (hrest stmt mem_cons_self)).mono (fun _ => .inl) fun _ => id
  obtain ⟨rfl, rfl⟩ | ⟨visited, key, binding, remains, declaration, -, -, rfl, hexported⟩ := hcases
  · refine forall_mem_append.2 ⟨hdone, fun n hn => Node.lacksDefault_of_not_mem ?_⟩
    exact Node.speaks_without.1 (hspeak _ hV hstmt n hn)
  · cases hexported with
    | bound exported =>
      exact forall_mem_append.2
        ⟨hdone, forall_mem_singleton.2 (Node.lacksDefault_exportBinding key binding)⟩
    | moved hmoves exported =>
      obtain ⟨hdeclarator, hremains⟩ := hmoves.forall_mem Node.lacksDefault_varDecl hdone
      have hvalue := movedValue_lacksDefault hx (Node.lacksDefault_declarator.1 hdeclarator).2
      exact forall_mem_append.2
        ⟨hremains, forall_mem_singleton.2 (Node.lacksDefault_exportValue key hvalue)⟩

/-- A run makes no `x.default` of a name that is in no table and in no statement
    still to come. -/
theorem Leads.lacksDefault (h : Leads e p q) (hV : (Vocabulary.without x).Admits p.state q.state)
    (hx : q.state.renames.isBinding x = false) (hdone : ∀ n ∈ p.done, n.LacksDefault x)
    (hrest : ∀ n ∈ p.rest, x ∉ n.names) : ∀ n ∈ q.done, n.LacksDefault x := by
  induction h with
  | refl => exact hdone
  | @tail q r hlead hstep ih =>
    have hbefore := hV.narrow (.refl _) hstep.grows
    refine hstep.lacksDefault (hV.narrow (Leads.grows hlead) (.refl _)) hx
      (ih hbefore ?_) fun n hn => ?_
    · exact Renaming.isBinding_eq_false_of_prefix hstep.grows.renames hx
    · exact hrest n (Leads.rest_subset hlead hn)

end Stage

end Pass

namespace Outcome.Ran

variable {o : Outcome} {program : Node} {body : List Node}

/-- A free name is reserved for an import, so only renaming can write it, but
    for `undefined`. -/
theorem lacksDefault_of_free (h : o.Ran program body) {i : Import} (hi : i ∈ o.state.imported)
    (hown : i.binding ≠ i.name) (hundefined : i.name ≠ "undefined")
    (hx : o.state.renames.isBinding i.name = false) : ∀ n ∈ o.walked, n.LacksDefault i.name := by
  have hnew : i.name ∉ program.names := (h.sound.outside i hi).resolve_left hown
  have hV : (Vocabulary.without i.name).Admits (Pass.start o.surroundings program body) o.state :=
    { replaced := fun entry hentry => (Renaming.ne_of_isBinding_eq_false hx hentry).2
      reserved := by
        rintro y - - hnone rfl
        refine hnone ⟨i, hi, fun hmem => ?_, rfl, hown⟩
        rw [(Pass.start_isQuiet _ _ _).imported] at hmem
        exact not_mem_nil hmem
      undefined := hundefined.symm
      spelled := fun _ _ _ _ _ _ _ => trivial }
  exact Pass.Stage.Leads.lacksDefault h.leads hV hx (forall_mem_nil _) fun n hn hmem =>
    hnew (h.names_subset hn hmem)

/-- The program has no `x.default` if the statements that are kept have none, as
    imports have none. -/
theorem lacksDefault_program (h : o.Ran program body) {x : Text} :
    o.program.LacksDefault x ↔ ∀ n ∈ o.kept, n.LacksDefault x := by
  have hroot : o.program.receiver? = none := by
    rw [h.program_eq]
    obtain rfl | rfl | rfl := Node.statements_cases h.statements <;> rfl
  rw [Node.lacksDefault_iff_children hroot, h.program_eq, Node.children_withStatements h.statements]
  constructor
  · exact fun hall n hn => hall n (Pass.mem_splice.2 (.inr hn))
  · intro hkept n hn
    rcases Pass.mem_splice.1 hn with hn | hn
    · obtain ⟨i, -, rfl⟩ := mem_map.1 hn
      exact i.lacksDefault_declaration x
    · exact hkept n hn

end Outcome.Ran

/-- For an import `a` that a pass adds, by default or not, there is no
    `a.default` in the program, with two exceptions: it keeps the name of its
    variable, or it has the name `undefined`, which the pass writes by itself.
    Then there is none if and only if the table of new names has `a`, or no kept
    statement has `a.default` when its visit is over. -/
theorem default_import_collapsed_iff {config : Config} {program : Node} {o : Outcome}
    (h : reconstruct config program = .ok o) {i : Import} (hi : i ∈ o.added) :
    (∀ m ∈ o.program.walk, ¬m.IsDefaultOf i.name) ↔
      (i.binding = i.name ∨ i.name = "undefined" → o.state.renames.isBinding i.name = false →
        ∀ n ∈ o.walked, o.state.renames.inStatement n ∈ o.kept →
          ∀ m ∈ n.walk, ¬m.IsDefaultOf i.name) := by
  obtain ⟨body, hran⟩ := reconstruct_ran h
  change o.program.LacksDefault i.name ↔ (_ → _ → ∀ n ∈ o.walked, _ → n.LacksDefault i.name)
  rw [hran.lacksDefault_program]
  constructor
  · intro hkept _ hx n _ hn
    have hrenamed := hkept _ hn
    rw [Renaming.inStatement_eq] at hrenamed
    exact (Renaming.lacksDefault_rewrite hx).1 hrenamed
  · intro hleft n hn
    obtain ⟨m, hm, rfl⟩ := hran.exists_of_mem_kept hn
    cases hx : o.state.renames.isBinding i.name with
    | true =>
      intro c hc hdefault
      have hcollapsed := o.state.renames.collapsed_inStatement m c hc hdefault.1 i.name hdefault.2
      exact Bool.false_ne_true (hcollapsed.symm.trans hx)
    | false =>
      rw [Renaming.inStatement_eq, Renaming.lacksDefault_rewrite hx]
      by_cases hexception : i.binding = i.name ∨ i.name = "undefined"
      · exact hleft hexception hx m hm hn
      · obtain ⟨hown, hundefined⟩ := not_or.1 hexception
        exact hran.lacksDefault_of_free
          ((Pass.distinct_sublist hran.adds).subset hi) hown hundefined hx m hm

/-- `var x = _interopRequireDefault(require("source"));` -/
def loadingDefault (x source : Text) : Node :=
  declaring x (.call (.identifier "_interopRequireDefault")
    [.call (.identifier "require") [.literal (.string source) none] false] false)

/-- `function _interopRequireDefault() {}`, loads of one module, and
    `React.default();` -/
def reactLoaded (bindings : List Text) : Node :=
  .program (namedFunction "_interopRequireDefault" [] :: bindings.map (loadingDefault · "react") ++
    [callingDefault "React"])

/-- The variable `React` keeps its name, `_react` gets it, `React()` is left. -/
theorem default_import_collapsed_iff_reactLoaded :
    ∃ o, reconstruct {} (reactLoaded ["React", "_react"]) = .ok o ∧
      ∃ i ∈ o.added, i.kind = .default ∧ i.binding = i.name ∧
        ∀ m ∈ o.program.walk, ¬m.IsDefaultOf i.name := by
  let P (o : Outcome) : Prop :=
    ∃ i ∈ o.added, i.kind = .default ∧ i.binding = i.name ∧ o.state.renames.isBinding i.name = true
  have hP : ∃ o, reconstruct {} (reactLoaded ["React", "_react"]) = .ok o ∧ P o :=
    exists_outcome (by decide +kernel)
  obtain ⟨o, ho, i, hi, hkind, hown, hbinding⟩ := hP
  refine ⟨o, ho, i, hi, hkind, hown, (default_import_collapsed_iff ho hi).2 fun _ hx => ?_⟩
  exact absurd (hx.symm.trans hbinding) Bool.false_ne_true

/-- If `React` is the only variable, `React.default()` is left, although `React`
    is the default export. -/
theorem default_import_not_collapsed :
    ∃ o, reconstruct {} (reactLoaded ["React"]) = .ok o ∧
      ∃ i ∈ o.added, i.kind = .default ∧ ∃ m ∈ o.program.walk, m.IsDefaultOf i.name := by
  let P (o : Outcome) : Prop := ∃ i ∈ o.added, i.kind = .default ∧ ∃ m ∈ o.program.walk,
    m.isMemberNamed "default" = true ∧ m.receiver?.bind Node.identifierName? = some i.name
  have hP : ∃ o, reconstruct {} (reactLoaded ["React"]) = .ok o ∧ P o :=
    exists_outcome (by decide +kernel)
  obtain ⟨o, ho, i, hi, hkind, m, hm, hname, hreceiver⟩ := hP
  obtain ⟨receiver, hreceiver, hid⟩ := Option.bind_eq_some_iff.1 hreceiver
  exact ⟨o, ho, i, hi, hkind, m, hm, hname,
    hreceiver.trans (congrArg some (Node.identifierName?_eq_some.1 hid))⟩

end Resugar
