import Resugar.Pass.Run
import Resugar.Proofs.Pass.Vocabulary

/-!
# Runs of a pass

A pass visits the statements of a program one after the other
(`Pass.statements`). A statement that is visited takes its place after those
before it, unless it is an export assignment: then an export declaration stands
for it, and the variable that it exports may go (`Pass.step_cases`,
`Pass.Moves`). What one statement does to names and tags, the whole run does.
-/

namespace Resugar

open Node List

/-! ## Definitions -/

namespace Node

variable {x : Text}

/-- The declarator that is found declares the name. -/
theorem declaratorOf?_eq_some {ds before after : List Node} {d : Node}
    (h : declaratorOf? x ds = .ok (some (before, d, after))) :
    ds = before ++ d :: after ∧ d.declares x = .ok true := by
  induction ds generalizing before with
  | nil => cases h
  | cons d' ds ih =>
    obtain ⟨found, hfound, h⟩ := bind_eq_ok.1 h
    cases found with
    | true =>
      cases h
      exact ⟨rfl, hfound⟩
    | false =>
      obtain ⟨o, ho, h⟩ := bind_eq_ok.1 h
      rcases o with _ | ⟨before', d'', after'⟩
      · cases h
      · cases h
        obtain ⟨rfl, hd⟩ := ih ho
        exact ⟨rfl, hd⟩

/-- The statement that is found defines the name. -/
theorem findDefinition?_eq_some {ns ss ts : List Node} {d : Definition}
    (h : findDefinition? x ns = .ok (some (ss, d, ts))) :
    ∃ n, ns = ss ++ n :: ts ∧ n.definition? x = .ok (some d) := by
  induction ns generalizing ss with
  | nil => cases h
  | cons n ns ih =>
    obtain ⟨o, ho, h⟩ := bind_eq_ok.1 h
    rcases o with _ | d'
    · obtain ⟨o, ho, h⟩ := bind_eq_ok.1 h
      rcases o with _ | ⟨ss', d', ts'⟩
      · cases h
      · cases h
        obtain ⟨n', rfl, hn'⟩ := ih ho
        exact ⟨n', rfl, hn'⟩
    · cases h
      exact ⟨n, rfl, ho⟩

/-- Only a declarator gives a value. -/
theorem definition?_value {n init : Node} {d : Definition} (h : n.definition? x = .ok (some d))
    (hvalue : d.value? = .ok (some init)) :
    ∃ kind before after, n = varDecl kind
      (before ++ declarator (identifier x) (some init) :: after) ∧
      d = .byDeclarator kind before (declarator (identifier x) (some init)) after := by
  unfold definition? at h
  split at h
  · rename_i kind ds
    obtain ⟨o, ho, h⟩ := bind_eq_ok.1 h
    rcases o with _ | ⟨before, d', after⟩
    · cases h
    · cases h
      obtain ⟨rfl, hd'⟩ := declaratorOf?_eq_some ho
      obtain ⟨target, htarget, hnamed⟩ := bind_eq_ok.1 hd'
      change d'.declaredValue = _ at hvalue
      unfold declaredValue at hvalue
      split at hvalue
      · cases htarget
        cases hvalue
        rename_i id
        have hnamed : id.identifierName? == some x := Except.ok.inj hnamed
        have hid : id = identifier x := by
          unfold identifierName? at hnamed
          split at hnamed
          · simpa using hnamed
          · cases hnamed
        exact ⟨kind, before, after, hid ▸ rfl, hid ▸ rfl⟩
      · cases htarget
      · cases hvalue
  · -- functions and classes are declared without a value
    obtain ⟨name, -, h⟩ := bind_eq_ok.1 h
    split at h <;> cases h
    cases hvalue
  · obtain ⟨name, -, h⟩ := bind_eq_ok.1 h
    split at h <;> cases h
    cases hvalue
  · cases h

variable {V : Vocabulary} {key binding : Text} {n : Node}

/-- An export assignment names the binding that it exports. -/
theorem exportAssignment?_speaks (h : n.exportAssignment? = some (key, binding))
    (hn : n.Speaks V true) : V.name binding := by
  unfold exportAssignment? at h
  split at h
  · rename_i expression
    split at h
    · rename_i heq
      split at h
      · obtain ⟨_, -, hpair⟩ := Option.map_eq_some_iff.1 h
        cases hpair
        have hassignment := heq ▸ speaks_ungroup.2 (speaks_exprStmt.1 hn)
        exact speaks_identifier.1 (speaks_assignment.1 hassignment).2 rfl
      · cases h
    · cases h
  · cases h

/-- An export of a binding has no other name that counts. -/
theorem exportBinding_speaks (key : Text) (h : V.name binding) :
    (exportBinding key binding).Speaks V true := by
  unfold exportBinding
  split
  · exact speaks_exportDefault.2 (speaks_identifier.2 fun _ => h)
  · -- the name after `as` is not walked
    refine speaks_exportNamed.2 ⟨nofun,
      forall_mem_singleton.2 (speaks_exportName.2 ⟨?_, ?_⟩), nofun⟩
    · exact speaks_identifier.2 fun _ => h
    · split
      · exact speaks_identifier.2 nofun
      · exact speaks_literal

/-- An export of a value has the names of the value, and its key. -/
theorem exportValue_speaks (hkey : key ≠ defaultKey → V.name key) (hn : n.Speaks V true) :
    (exportValue key n).Speaks V true := by
  unfold exportValue
  split
  · exact speaks_exportDefault.2 hn
  · rename_i hne
    refine speaks_exportNamed.2 ⟨fun d hd => ?_, nofun, nofun⟩
    rw [← Option.some.inj hd]
    refine speaks_varDecl.2 (forall_mem_singleton.2 (speaks_declarator.2 ⟨?_, fun m hm => ?_⟩))
    · exact speaks_identifier.2 fun _ => hkey hne
    · exact Option.some.inj hm ▸ hn

end Node

namespace Pass

variable {e : Surroundings} {s s' : PassState} {done rest remains done' body : List Node}
  {stmt init declaration : Node} {key binding : Text} {V : Vocabulary} {names : List Text}

/-! ## One statement -/

/-- The definition of a variable before an export of it is taken out: `init` is
    its value, and `remains` are the statements before the export without it. -/
structure Moves (s : PassState) (done : List Node) (stmt : Node) (rest : List Node)
    (key binding : Text) (remains : List Node) (init : Node) : Prop where
  definition : ∃ ss d ts, findDefinition? binding done = .ok (some (ss, d, ts)) ∧
    d.value? = .ok (some init) ∧ remains = ss ++ d.remains ++ ts
  few : Refs.ofNodes (done ++ stmt :: rest) binding ≤ 2
  declarable : canDeclare s.names key binding = true

/-- The definition that is taken out is a declarator; the others stay. -/
theorem Moves.remains_eq (h : Moves s done stmt rest key binding remains init) :
    ∃ ss kind before after ts, done = ss ++
      .varDecl kind (before ++ .declarator (.identifier binding) (some init) :: after) :: ts ∧
      remains = ss ++ Visit.declaration kind (before ++ after) ++ ts := by
  obtain ⟨ss, d, ts, hfind, hvalue, rfl⟩ := h.definition
  obtain ⟨n, rfl, hn⟩ := findDefinition?_eq_some hfind
  obtain ⟨kind, before, after, rfl, rfl⟩ := definition?_value hn hvalue
  refine ⟨ss, kind, before, after, ts, rfl, ?_⟩
  rcases before with _ | _ <;> rcases after with _ | _ <;> rfl

/-- All but that declarator remains. -/
theorem Moves.split (h : Moves s done stmt rest key binding remains init) :
    ∃ ss kind before after ts, done = ss ++
      .varDecl kind (before ++ .declarator (.identifier binding) (some init) :: after) :: ts ∧
      ∀ n ∈ remains, n ∈ ss ∨ n = .varDecl kind (before ++ after) ∨ n ∈ ts := by
  obtain ⟨ss, kind, before, after, ts, rfl, rfl⟩ := h.remains_eq
  refine ⟨ss, kind, before, after, ts, rfl, fun n hn => ?_⟩
  rw [mem_append, mem_append, Visit.declaration] at hn
  rcases hn with (hn | hn) | hn
  · exact .inl hn
  · split at hn
    · cases hn
    · exact .inr (.inl (mem_singleton.1 hn))
  · exact .inr (.inr hn)

/-- What holds of all statements, and of a declaration if it does of its
    declarators, holds of the declarator that is taken out, and of all that
    remains. -/
theorem Moves.forall_mem {P : Node → Prop}
    (hP : ∀ {kind : VariableKind} {ds : List Node}, P (.varDecl kind ds) ↔ ∀ d ∈ ds, P d)
    (h : Moves s done stmt rest key binding remains init) (hdone : ∀ n ∈ done, P n) :
    P (.declarator (.identifier binding) (some init)) ∧ ∀ n ∈ remains, P n := by
  obtain ⟨ss, kind, before, after, ts, rfl, hremains⟩ := h.split
  obtain ⟨hss, hdefinition, hts⟩ : (∀ n ∈ ss, P n) ∧ P _ ∧ ∀ n ∈ ts, P n := by
    simpa only [forall_mem_append, forall_mem_cons] using hdone
  obtain ⟨hbefore, hdeclarator, hafter⟩ : (∀ d ∈ before, P d) ∧ P _ ∧ ∀ d ∈ after, P d := by
    simpa only [forall_mem_append, forall_mem_cons] using hP.1 hdefinition
  refine ⟨hdeclarator, fun n hn => ?_⟩
  rcases hremains n hn with hn | rfl | hn
  · exact hss n hn
  · exact hP.2 (forall_mem_append.2 ⟨hbefore, hafter⟩)
  · exact hts n hn

/-- The value of a variable, as it is exported. -/
def movedValue (r : Renaming) (init : Node) : Node :=
  (r.rename? (r.sweep init)).getD (r.sweep init)

/-- A value that moves keeps to the vocabulary, by the new names in it. -/
theorem movedValue_speaks {r : Renaming} (hr : ∀ entry ∈ r.entries, V.name entry.2)
    (h : init.Speaks V true) : (movedValue r init).Speaks V true := by
  have hbefore {n : Node} (hn : n.Speaks V true) : n.Speaks (V.before r) true :=
    hn.mono (fun _ => .inl) fun _ => id
  have hswept := Renaming.sweep_speaks hr (hbefore h)
  exact Renaming.rename?_speaks hr (speaks_iff.1 (hbefore hswept)).1
    (speaks_iff.1 hswept).2

/-- A key can be declared if it is no name, is the one that goes, or is free. -/
theorem key_of_canDeclare {names : Names} (h : canDeclare names key binding = true) :
    key = defaultKey ∨ key = binding ∨ key ∉ names.used := by
  simp only [canDeclare, Bool.or_eq_true, Bool.and_eq_true] at h
  rcases h with h | ⟨-, h | h⟩
  · exact .inl (eq_of_beq h)
  · exact .inr (.inl (eq_of_beq h))
  · refine .inr (.inr fun hused => ?_)
    rw [Names.has_iff.2 hused] at h
    cases h

/-- What becomes of an export assignment: an export of binding or value. -/
inductive Exported (s : PassState) (done : List Node) (stmt : Node)
    (rest : List Node) (key binding : Text) : List Node → Node → PassState → Prop
  | bound (exported : List Text)
    (hnoted : exported = if s.exported.contains key then s.exported else s.exported ++ [key]) :
    Exported s done stmt rest key binding done (exportBinding key binding)
      { s with exported, tally := { s.tally with exports := s.tally.exports + 1 } }
  | moved {remains : List Node} {init : Node} (h : Moves s done stmt rest key binding remains init)
    (exported : List Text)
    (hnoted : exported = if s.exported.contains key then s.exported else s.exported ++ [key]) :
    Exported s done stmt rest key binding remains (exportValue key (movedValue s.renames init))
      { s with
        exported
        tally := { s.tally with exports := s.tally.exports + 1 }
        extracted := s.extracted ++ [(key, binding)] }

/-- What is exported for a variable is its value, and that goes. -/
theorem exported?_eq_some {after : List Node}
    (h : exported? binding done after = .ok (some (some (init, remains)))) :
    ∃ ss d ts, findDefinition? binding done = .ok (some (ss, d, ts)) ∧
      d.value? = .ok (some init) ∧ remains = ss ++ d.remains ++ ts := by
  obtain ⟨o, ho, h⟩ := bind_eq_ok.1 h
  rcases o with _ | ⟨ss, d, ts⟩
  · obtain ⟨o, -, h⟩ := bind_eq_ok.1 h
    rcases o with _ | ⟨ss, d, ts⟩
    · cases h
    · obtain ⟨value, -, h⟩ := bind_eq_ok.1 h
      cases h
  · obtain ⟨value, hvalue, h⟩ := bind_eq_ok.1 h
    rcases value with _ | value
    · cases h
    · cases h
      exact ⟨ss, d, ts, ho, hvalue, rfl⟩

/-- What can become of a statement: nothing, or one of the two exports. -/
theorem exportAt?_cases {o : Option (List Node × Node)}
    (h : exportAt? e done stmt rest s = .ok (o, s')) :
    o = none ∧ s' = s ∨ ∃ key binding done' declaration,
      stmt.exportAssignment? = some (key, binding) ∧ o = some (done', declaration) ∧
      Exported s done stmt rest key binding done' declaration s' := by
  unfold exportAt? at h
  rcases hexport : (if e.config.exports then stmt.exportAssignment? else
    none) with _ | ⟨key, binding⟩
  · rw [hexport] at h
    cases h
    exact .inl ⟨rfl, rfl⟩
  · rw [hexport] at h
    have hassignment : stmt.exportAssignment? = some (key, binding) := by
      split at hexport
      · exact hexport
      · cases hexport
    obtain ⟨movable, s₁, hlift, h⟩ := PassM.bind_eq_ok.1 h
    obtain ⟨hmovable, rfl⟩ := PassM.lift_eq_ok.1 hlift
    rcases movable with _ | _ | ⟨init, remains⟩
    · cases h
      exact .inl ⟨rfl, rfl⟩
    · cases h
      exact .inr ⟨key, binding, _, _, hassignment, rfl, .bound _ rfl⟩
    · replace h : (if Refs.ofNodes (done ++ stmt :: rest) binding ≤ 2 &&
        canDeclare s.names key binding then _ else _ : PassM _) _ = _ := h
      -- a value moves if its binding has no references but its definition and
      -- the export
      by_cases hmoves : (Refs.ofNodes (done ++ stmt :: rest) binding ≤ 2 &&
        canDeclare s.names key binding) = true
      · rw [if_pos hmoves] at h
        cases h
        obtain ⟨hfew, hdeclarable⟩ := Bool.and_eq_true_iff.1 hmoves
        refine .inr ⟨key, binding, _, _, hassignment, rfl,
          .moved ⟨?_, of_decide_eq_true hfew, hdeclarable⟩ _ rfl⟩
        exact exported?_eq_some hmovable
      · rw [if_neg hmoves] at h
        cases h
        exact .inr ⟨key, binding, _, _, hassignment, rfl, .bound _ rfl⟩

/-- An export adds to the state. -/
theorem Exported.grows (h : Exported s done stmt rest key binding done' declaration s') :
    s.Grows s' := by
  have hrefl := PassState.Grows.refl s
  cases h with
  | bound exported => exact { hrefl with }
  | moved h exported => exact { hrefl with extracted := prefix_append .. }

/-- An export leaves what the state promises. -/
theorem Exported.sound (h : Exported s done stmt rest key binding done' declaration s')
    (hs : s.Sound names) : s'.Sound names := by
  cases h <;> exact { hs with }

/-- An export declaration has the names of the export assignment and of the
    value. A key that it declares is free, or the name of the binding. -/
theorem Exported.speaks (h : Exported s done stmt rest key binding done' declaration s')
    (hstmt : stmt.exportAssignment? = some (key, binding))
    (hreplaced : ∀ entry ∈ s.renames.entries, V.name entry.2)
    (hfree : ∀ entry ∈ s'.extracted, entry.1 ∉ s.names.used → V.name entry.1)
    (hspeaks : stmt.Speaks V true) (hdone : ∀ n ∈ done, n.Speaks V true) :
    ∀ n ∈ done' ++ [declaration], n.Speaks V true := by
  cases h with
  | bound exported =>
    have hbinding := exportBinding_speaks key (exportAssignment?_speaks hstmt hspeaks)
    exact forall_mem_append.2 ⟨hdone, forall_mem_singleton.2 hbinding⟩
  | @moved remains init h exported =>
    obtain ⟨hdeclarator, hremains⟩ := h.forall_mem speaks_varDecl hdone
    obtain ⟨hbinding, hinit⟩ := speaks_declarator.1 hdeclarator
    refine forall_mem_append.2 ⟨hremains, forall_mem_singleton.2 ?_⟩
    refine exportValue_speaks (fun hkey => ?_) (movedValue_speaks hreplaced (hinit init rfl))
    rcases key_of_canDeclare h.declarable with rfl | rfl | hused
    · exact absurd rfl hkey
    · exact speaks_identifier.1 hbinding rfl
    · exact hfree _ (mem_append_right _ (mem_singleton_self _)) hused

/-- What the visit of a statement leaves stands after the statements before it,
    or an export declaration does. -/
theorem step_cases {v : Visit} (h : step e done v rest s = .ok (done', s')) :
    ∃ ns s₁, v.spliced false ((Refs.ofNodes done).plus (Refs.ofNodes rest)) s = .ok (ns, s₁) ∧
      (done' = done ++ ns ∧ s' = s₁ ∨ ∃ stmt key binding remains declaration, ns = [stmt] ∧
        stmt.exportAssignment? = some (key, binding) ∧ done' = remains ++ [declaration] ∧
          Exported s₁ done stmt rest key binding remains declaration s') := by
  obtain ⟨ns, s₁, hns, h⟩ := PassM.bind_eq_ok.1 h
  refine ⟨ns, s₁, hns, ?_⟩
  split at h
  · rename_i expression
    obtain ⟨o, s₂, ho, h⟩ := PassM.bind_eq_ok.1 h
    obtain ⟨rfl, hs⟩ | ⟨key, binding, remains, declaration, hassignment, rfl, hexported⟩ :=
      exportAt?_cases ho
    · cases h
      exact .inl ⟨rfl, hs⟩
    · cases h
      exact .inr ⟨_, key, binding, remains, declaration, rfl, hassignment, rfl, hexported⟩
  · cases h
    exact .inl ⟨rfl, rfl⟩

/-- Where exports are left alone, what a visit leaves stands after the
    statements before it. -/
theorem step_of_not_exports (he : e.config.exports = false) {v : Visit}
    (h : step e done v rest s = .ok (done', s')) :
    ∃ ns, v.spliced false ((Refs.ofNodes done).plus (Refs.ofNodes rest)) s = .ok (ns, s') ∧
      done' = done ++ ns := by
  obtain ⟨ns, s₁, hns, h⟩ := PassM.bind_eq_ok.1 h
  have hoff (n : Node) : exportAt? e done n rest s₁ = .ok (none, s₁) := by
    rw [exportAt?, he]
    rfl
  split at h
  · obtain ⟨o, s₂, ho, h⟩ := PassM.bind_eq_ok.1 h
    rw [hoff] at ho
    cases ho
    cases h
    exact ⟨_, hns, rfl⟩
  · cases h
    exact ⟨_, hns, rfl⟩

/-! ## Runs -/

/-- Where a run stands: the statements visited, and those to visit. -/
structure Stage where
  done : List Node
  rest : List Node
  state : PassState

namespace Stage

/-- The next statement is visited. -/
inductive Advances (e : Surroundings) : Stage → Stage → Prop
  | visit {done done' : List Node} {stmt : Node} {rest : List Node} {s s' : PassState}
    (h : step e done (Visit.ofNode e stmt) rest s = .ok (done', s')) :
    Advances e ⟨done, stmt :: rest, s⟩ ⟨done', rest, s'⟩

/-- The stages that a run comes to. -/
abbrev Leads (e : Surroundings) : Stage → Stage → Prop :=
  Relation.ReflTransGen (Advances e)

variable {p q : Stage} {V : Vocabulary}

theorem Advances.grows (h : Advances e p q) : p.state.Grows q.state := by
  obtain ⟨h⟩ := h
  obtain ⟨ns, s₁, hns, ⟨-, rfl⟩ | ⟨stmt, key, binding, remains, declaration, -, -, -, hexported⟩⟩ :=
    step_cases h
  · exact ((Visit.ofNode_visits _ _).spliced hns).1.grows
  · exact ((Visit.ofNode_visits _ _).spliced hns).1.grows.trans hexported.grows

theorem Leads.grows (h : Leads e p q) : p.state.Grows q.state := by
  induction h with
  | refl => exact .refl _
  | tail _ hstep ih => exact ih.trans hstep.grows

theorem Advances.sound (h : Advances e p q) {names : List Text} (hs : p.state.Sound names) :
    q.state.Sound names := by
  obtain ⟨h⟩ := h
  obtain ⟨ns, s₁, hns, ⟨-, rfl⟩ | ⟨stmt, key, binding, remains, declaration, -, -, -, hexported⟩⟩ :=
    step_cases h
  · exact ((Visit.ofNode_visits _ _).spliced hns).1.sound hs
  · exact hexported.sound (((Visit.ofNode_visits _ _).spliced hns).1.sound hs)

/-- A run keeps what the state promises. -/
theorem Leads.sound (h : Leads e p q) {names : List Text} (hs : p.state.Sound names) :
    q.state.Sound names := by
  induction h with
  | refl => exact hs
  | tail _ hstep ih => exact hstep.sound ih

theorem Leads.rest_subset (h : Leads e p q) : q.rest ⊆ p.rest := by
  induction h with
  | refl => exact List.Subset.refl _
  | tail _ hstep ih =>
    obtain ⟨-⟩ := hstep
    exact fun n hn => ih (mem_cons_of_mem _ hn)

/-- The statements visited so far keep to a vocabulary that the next visit
    admits. A key that an export declares may be any that is free. -/
theorem Advances.speak (h : Advances e p q) (hV : V.Admits p.state q.state)
    (hfree : ∀ entry ∈ q.state.extracted, entry.1 ∉ p.state.names.used → V.name entry.1)
    (hdone : ∀ n ∈ p.done, n.Speaks V true)
    (hrest : ∀ n ∈ p.rest, n.Speaks (V.before p.state.renames) true) :
    ∀ n ∈ q.done, n.Speaks V true := by
  obtain @⟨done, done', stmt, rest, s, s', h⟩ := h
  obtain ⟨ns, s₁, hns, hcases⟩ := step_cases h
  obtain ⟨hreach, hspeak⟩ := (Visit.ofNode_visits e stmt).spliced hns
  have hstmt := hrest stmt mem_cons_self
  obtain ⟨rfl, rfl⟩ | ⟨visited, key, binding, remains, declaration, rfl,
    hassignment, rfl, hexported⟩ := hcases
  · exact forall_mem_append.2 ⟨hdone, hspeak V hV hstmt⟩
  · have hV₁ := hV.narrow (.refl _) hexported.grows
    refine hexported.speaks hassignment hV₁.replaced (fun entry hentry hunused => ?_) ?_ hdone
    · exact hfree entry hentry fun hused => hunused (hreach.grows.names hused)
    · exact hspeak V hV₁ hstmt visited (mem_singleton_self _)

/-- So do the statements that a whole run leaves. -/
theorem Leads.speak (h : Leads e p q) (hV : V.Admits p.state q.state)
    (hfree : ∀ entry ∈ q.state.extracted, entry.1 ∉ p.state.names.used → V.name entry.1)
    (hdone : ∀ n ∈ p.done, n.Speaks V true)
    (hrest : ∀ n ∈ p.rest, n.Speaks (V.before p.state.renames) true) :
    ∀ n ∈ q.done, n.Speaks V true := by
  induction h with
  | refl => exact hdone
  | @tail q r hlead hstep ih =>
    have hgrows := Leads.grows hlead
    refine hstep.speak (hV.narrow hgrows (.refl _)) (fun entry hentry hunused => ?_)
      (ih ?_ fun entry hentry => ?_) ?_
    · exact hfree entry hentry fun hused => hunused (hgrows.names hused)
    · exact hV.narrow (.refl _) hstep.grows
    · exact hfree entry (hstep.grows.extracted.subset hentry)
    · exact fun n hn => Renaming.speaks_before_mono hgrows.renames
        (hrest n (Leads.rest_subset hlead hn))

end Stage

/-- The visits to the statements of a program are a run. -/
theorem statements_lead {walked : List Node} (h : statements e done rest s = .ok (walked, s')) :
    Stage.Leads e ⟨done, rest, s⟩ ⟨walked, [], s'⟩ := by
  induction rest generalizing done s with
  | nil =>
    cases h
    exact .refl
  | cons stmt rest ih =>
    obtain ⟨done', s₁, hstep, h⟩ := PassM.bind_eq_ok.1 h
    exact .head (.visit hstep) (ih h)

/-! ## The two ends of a pass -/

/-- The name that a `displayName` says is reserved when it is given. -/
theorem applyDisplayName_sound (hs : s.Sound names) (functions : List Text) (name pretty : Text) :
    (applyDisplayName functions s name pretty).Sound names := by
  unfold applyDisplayName
  split
  · have hinsert := hs.insert pretty
    refine { hinsert with replaced := fun entry hentry => ?_ }
    rcases Renaming.mem_add hentry with hentry | rfl
    · exact hinsert.replaced entry hentry
    · exact Names.mem_insert.2 (.inr rfl)
  · exact hs

/-- The state keeps its promises when the visits begin. -/
theorem start_sound (e : Surroundings) (program : Node) (body : List Node) :
    (start e program body).Sound program.names := by
  have hempty : PassState.Sound program.names { names := Names.ofProgram program } :=
    ⟨fun x hx => mem_eraseDups.2 hx, .nil, .nil, nofun, nofun, nofun⟩
  unfold start
  dsimp only
  split
  · exact foldlRecOn _ _ hempty fun s hs said _ => applyDisplayName_sound hs _ said.1 said.2
  · exact hempty

theorem extracted_start (e : Surroundings) (program : Node) (body : List Node) :
    (start e program body).extracted = [] := by
  unfold start
  dsimp only
  split
  · refine foldlRecOn (motive := fun s : PassState => s.extracted = []) _ _ rfl
      fun s hs said _ => ?_
    unfold applyDisplayName
    split <;> exact hs
  · rfl

/-- The imports that are added are some of those taken up, in order. -/
theorem distinct_sublist {seen : List Text} {imports added : List Import}
    (h : distinct seen imports = .ok added) : added.Sublist imports := by
  induction imports generalizing seen added with
  | nil =>
    cases h
    exact .slnil
  | cons i imports ih =>
    obtain ⟨text, -, h⟩ := bind_eq_ok.1 h
    split at h
    · exact (ih h).cons i
    · obtain ⟨added', hadded', h⟩ := bind_eq_ok.1 h
      cases h
      exact (ih hadded').cons_cons i

theorem definesOneOf_nil (n : Node) : n.definesOneOf [] ≠ .ok true := by
  unfold definesOneOf
  split
  · intro h
    obtain ⟨name, -, h⟩ := bind_eq_ok.1 h
    cases h
  · exact fun h => Bool.noConfusion (Except.ok.inj h)

/-- The definitions of unused helpers go, and no other statements. -/
theorem dropHelpers_eq_filter {kept : List Node} (h : dropHelpers names body = .ok kept) :
    ∃ p : Node → Bool, kept = body.filter p ∧ ∀ n ∈ body, p n = false ↔
      n.definesOneOf (unusedHelpers names body) = .ok true := by
  unfold dropHelpers at h
  split at h
  · rename_i hnone
    cases h
    obtain rfl := List.isEmpty_iff.1 hnone
    refine ⟨fun _ => true, (filter_true _).symm,
      fun n _ => ⟨fun hn => Bool.noConfusion hn, fun hn => ?_⟩⟩
    exact absurd hn (definesOneOf_nil n)
  · obtain ⟨hall, rfl⟩ := filterM_eq_ok h
    refine ⟨_, rfl, fun n hn => ?_⟩
    obtain ⟨b, hb⟩ := hall n hn
    obtain ⟨defines, hdefines, hb'⟩ := bind_eq_ok.1 hb
    cases hb'
    rw [hb, hdefines]
    cases defines with
    | true => exact ⟨fun _ => rfl, fun _ => rfl⟩
    | false => exact ⟨fun h => Bool.noConfusion h, fun h => Bool.noConfusion (Except.ok.inj h)⟩

/-- Of some statements only those go that define an unused helper. -/
theorem mem_dropHelpers {kept : List Node} (h : dropHelpers names body = .ok kept) {n : Node} :
    (n ∈ kept → n ∈ body) ∧ (n ∈ body → n ∉ kept →
      n.definesOneOf (unusedHelpers names body) = .ok true) := by
  obtain ⟨p, rfl, hp⟩ := dropHelpers_eq_filter h
  refine ⟨mem_of_mem_filter, fun hn hnot => (hp n hn).1 ?_⟩
  exact Bool.not_eq_true _ ▸ fun hpn => hnot (mem_filter.2 ⟨hn, hpn⟩)

/-- The statements with imports added are the imports and the statements. -/
theorem mem_splice {added : List Import} {n : Node} :
    n ∈ splice added body ↔ n ∈ added.map Import.declaration ∨ n ∈ body := by
  conv_rhs => rw [← takeWhile_append_dropWhile (p := isDirective) (l := body)]
  simp only [splice, mem_append]
  exact ⟨fun h => h.elim (fun h => h.elim (.inr ∘ .inl) .inl) (.inr ∘ .inr),
    fun h => h.elim (.inl ∘ .inr) fun h => h.elim (.inl ∘ .inl) .inr⟩

/-- Renaming takes each statement by itself, and leftovers of exports go. -/
theorem renamed_subset (e : Surroundings) (s : PassState) (body : List Node) :
    renamed e s body ⊆ body.map s.renames.inStatement := by
  unfold renamed
  rw [Renaming.sweep_program]
  dsimp only
  split
  · exact filter_subset_self _
  · exact List.Subset.refl _

/-- Renaming leaves no variable that has a new name. -/
theorem renamed_speak (hr : ∀ entry ∈ s.renames.entries, V.name entry.2)
    (hbody : ∀ n ∈ body, n.Speaks (V.before s.renames) true) :
    ∀ n ∈ renamed e s body, n.Speaks V true := by
  intro n hn
  have hswept := Renaming.sweep_speaks hr (speaks_program.2 hbody)
  rw [Renaming.sweep_program] at hswept
  exact speaks_program.1 hswept n (renamed_subset e s body hn)

end Pass

/-! ## Outcomes -/

namespace Node

variable {body statements : List Node} {program : Node}

theorem withStatements_self (h : program.statements = .ok body) :
    program.withStatements body = program := by
  obtain rfl | rfl | rfl := statements_cases h <;> rfl

theorem children_withStatements (h : program.statements = .ok body) :
    (program.withStatements statements).children = statements := by
  have hnodes : (Slot.list (statements.map some)).nodes = statements := by simp [Slot.nodes]
  obtain rfl | rfl | rfl :=
    statements_cases h <;> simp [withStatements, children, Field.list, Field.walkedNodes, hnodes]

/-- The names of a program are those of its statements. -/
theorem names_withStatements (h : program.statements = .ok body) :
    (program.withStatements statements).names = statements.flatMap names := by
  rw [names_eq, children_withStatements h]
  obtain rfl | rfl | rfl := statements_cases h <;> rfl

theorem tags_withStatements (h : program.statements = .ok body) :
    (program.withStatements statements).tags = statements.flatMap tags := by
  have hnodes : (Slot.list (statements.map some)).nodes = statements := by simp [Slot.nodes]
  obtain rfl | rfl | rfl :=
    statements_cases h <;> simp [withStatements, tags_eq, elementName?, parts, Field.list, hnodes]

end Node

theorem Import.names_declaration (i : Import) : i.declaration.names = [i.name] := by
  unfold declaration
  cases i.kind <;> rfl

theorem Import.tags_declaration (i : Import) : i.declaration.tags = [] := by
  unfold declaration
  cases i.kind <;> rfl

/-- A name that the pass itself writes: a new name, or `undefined`. -/
def Outcome.Gives (o : Outcome) (x : Text) : Prop :=
  x = "undefined" ∨ ∃ entry ∈ o.state.renames.entries, entry.2 = x

/-- The stages of a pass over a program with some statements. -/
structure Outcome.Ran (o : Outcome) (program : Node) (body : List Node) : Prop where
  statements : program.statements = .ok body
  leads : Pass.Stage.Leads o.surroundings
    ⟨[], body, Pass.start o.surroundings program body⟩ ⟨o.walked, [], o.state⟩
  drops : Pass.dropHelpers (Pass.idleHelpers o.surroundings o.state.tally)
    (Pass.renamed o.surroundings o.state o.walked) = .ok o.kept
  adds : Pass.distinct [] o.state.imported = .ok o.added
  program_eq : o.program = program.withStatements (Pass.splice o.added o.kept)

variable {config : Config} {program : Node} {o : Outcome}

/-- What a pass does, from the start to the program that it leaves. -/
theorem reconstruct_cases (h : reconstruct config program = .ok o) :
    survey config program = .ok o.surroundings ∧ ∃ body, program.statements = .ok body ∧
      (Pass.statements o.surroundings [] body).run (Pass.start o.surroundings program body) =
        .ok (o.walked, o.state) ∧ Pass.dropHelpers (Pass.idleHelpers o.surroundings o.state.tally)
      (Pass.renamed o.surroundings o.state o.walked) = .ok o.kept ∧
      Pass.distinct [] o.state.imported = .ok o.added ∧
      o.program = program.withStatements (Pass.splice o.added o.kept) := by
  obtain ⟨e, he, h⟩ := bind_eq_ok.1 h
  obtain ⟨body, hbody, h⟩ := bind_eq_ok.1 h
  obtain ⟨⟨walked, state⟩, hwalked, h⟩ := bind_eq_ok.1 h
  obtain ⟨kept, hkept, h⟩ := bind_eq_ok.1 h
  obtain ⟨added, hadded, h⟩ := bind_eq_ok.1 h
  cases h
  exact ⟨he, body, hbody, hwalked, hkept, hadded, rfl⟩

/-- A pass that gives an outcome has run. -/
theorem reconstruct_ran (h : reconstruct config program = .ok o) : ∃ body, o.Ran program body := by
  obtain ⟨-, body, hbody, hwalked, hkept, hadded, hprogram⟩ := reconstruct_cases h
  exact ⟨body, hbody, Pass.statements_lead hwalked, hkept, hadded, hprogram⟩

/-- A pass knows of a program what is known from the start. -/
theorem reconstruct_survey (h : reconstruct config program = .ok o) :
    survey config program = .ok o.surroundings :=
  (reconstruct_cases h).1

/-- A pass goes by the settings, but only a program has exports. -/
theorem reconstruct_config (h : reconstruct config program = .ok o) :
    o.surroundings.config = { config with exports := config.exports && program.isProgram } := by
  obtain ⟨body, -, he⟩ := bind_eq_ok.1 (reconstruct_survey h)
  obtain ⟨helpers, -, he⟩ := bind_eq_ok.1 he
  dsimp only at he
  split at he <;>
  · obtain ⟨runtime, -, he⟩ := bind_eq_ok.1 he
    rw [← Except.ok.inj he]

/-- `var x = require("source");` -/
def loading (x source : Text) : Node :=
  .varDecl .var [.declarator (.identifier x)
    (some (.call (.identifier "require") [.literal (.string source) none] false))]

/-- `function x() { … }` -/
def namedFunction (x : Text) (body : List Node) : Node :=
  .functionDecl (some (.identifier x)) [] (.block body) false false

/-- `var name = init;` -/
def declaring (name : Text) (init : Node) : Node :=
  .varDecl .var [.declarator (.identifier name) (some init)]

/-- `exports.x = x;` -/
def exporting (x : Text) : Node :=
  .exprStmt (.assignment "="
    (.member (.identifier "exports") (.identifier x) false false) (.identifier x))

/-- `var _proto = name.prototype;` -/
def prototypeOf (name : Text) : Node :=
  declaring "_proto" (.member (.identifier name) (.identifier "prototype") false false)

/-- `function (params) { … }(arguments)` -/
def calledAtOnce (params : List Text) (statements arguments : List Node) : Node :=
  .call (.functionExpr none (params.map .identifier) (.block statements) false false)
    arguments false

/-- A test that the outcome of a pass satisfies. -/
theorem exists_outcome {P : Outcome → Prop} [DecidablePred P]
    (h : (reconstruct config program).toOption.any (fun o => decide (P o)) = true) :
    ∃ o, reconstruct config program = .ok o ∧ P o := by
  cases ho : reconstruct config program with
  | error fault =>
    rw [ho] at h
    cases h
  | ok o =>
    rw [ho] at h
    exact ⟨o, rfl, of_decide_eq_true h⟩

namespace Outcome.Ran

variable {o : Outcome} {program : Node} {body : List Node}

theorem sound (h : o.Ran program body) : o.state.Sound program.names :=
  Pass.Stage.Leads.sound h.leads (Pass.start_sound _ _ _)

theorem names_subset (h : o.Ran program body) {n : Node} (hn : n ∈ body) :
    n.names ⊆ program.names := by
  rw [← withStatements_self h.statements, names_withStatements h.statements]
  exact fun x hx => mem_flatMap.2 ⟨n, hn, hx⟩

/-- A kept statement is one that the visits left, with its bindings renamed. -/
theorem exists_of_mem_kept (h : o.Ran program body) {n : Node} (hn : n ∈ o.kept) :
    ∃ m ∈ o.walked, n = o.state.renames.inStatement m := by
  obtain ⟨m, hm, rfl⟩ :=
    mem_map.1 (Pass.renamed_subset _ _ _ ((Pass.mem_dropHelpers h.drops).1 hn))
  exact ⟨m, hm, rfl⟩

/-- The names of the program are those of imports and kept statements. -/
theorem mem_names (h : o.Ran program body) {x : Text} :
    x ∈ o.program.names ↔ x ∈ o.added.map Import.name ∨ ∃ n ∈ o.kept, x ∈ n.names := by
  rw [h.program_eq, names_withStatements h.statements, mem_flatMap]
  simp only [Pass.mem_splice, mem_map]
  constructor
  · rintro ⟨n, ⟨i, hi, rfl⟩ | hn, hx⟩
    · exact .inl ⟨i, hi, (mem_singleton.1 (i.names_declaration ▸ hx)).symm⟩
    · exact .inr ⟨n, hn, hx⟩
  · rintro (⟨i, hi, rfl⟩ | ⟨n, hn, hx⟩)
    · exact ⟨i.declaration, .inl ⟨i, hi, rfl⟩, i.names_declaration ▸ mem_singleton_self _⟩
    · exact ⟨n, .inr hn, hx⟩

/-- The elements of the program are those of the kept statements. -/
theorem mem_tags (h : o.Ran program body) {tag : Text} :
    tag ∈ o.program.tags ↔ ∃ n ∈ o.kept, tag ∈ n.tags := by
  rw [h.program_eq, tags_withStatements h.statements, mem_flatMap]
  simp only [Pass.mem_splice, mem_map]
  constructor
  · rintro ⟨n, ⟨i, hi, rfl⟩ | hn, ht⟩
    · rw [i.tags_declaration] at ht
      cases ht
    · exact ⟨n, hn, ht⟩
  · rintro ⟨n, hn, ht⟩
    exact ⟨n, .inr hn, ht⟩

end Outcome.Ran

end Resugar
