import Mathlib.Data.List.Dedup
import Resugar.Proofs.Pass.Idle
import Resugar.Proofs.Pass.Markup

/-!
# The exports of a program

A module may export a name once. A pass makes an export of every export
assignment at the top level, and does not look at those that it made before:
`exports.k = a; exports.k = a;` becomes two exports of `k`. Otherwise its
accounts are right: the exports of a program that had none are those that the
pass counts, and they export the keys that it notes. A key that an export
declares (`export const k = …`) is a variable like any other and may get a new
name in the end.
-/

namespace Resugar

open Node List
open Text (ofString)

/-! ## Exported names -/

namespace Node

/-- Export statements. -/
def isExport : Node → Bool
  | exportNamed .. | exportDefault .. | exportAll .. => true
  | _ => false

/-- A name that is written as a name or as a string. -/
def writtenName? (n : Node) : Option Text :=
  n.identifierName? <|> n.stringValue?

/-- The name that `a as b` exports. -/
def specifiedName? : Node → Option Text
  | exportName _ exported => exported.writtenName?
  | _ => none

/-- The names that a statement exports. -/
def exportedNames : Node → List Text
  | exportDefault _ => [defaultKey]
  | exportNamed declaration specifiers source =>
    (exportNamed declaration specifiers source).declaredNames ++ specifiers.filterMap specifiedName?
  | exportAll _ exported => exported.toList.filterMap writtenName?
  | _ => []

/-- The names that are exported anywhere in a tree. -/
def exports (n : Node) : List Text :=
  n.descendants.flatMap exportedNames

/-- No export stands in a tree. -/
abbrev Unexported (n : Node) : Prop :=
  n.Holds fun m => m.isExport = false

variable {n : Node}

theorem isExport_setSlots (s : Nat → Slot Node) (n : Node) :
    (n.setSlots s).isExport = n.isExport := by
  cases n <;> rfl

theorem isForeign_of_isExport (h : n.isExport = true) : n.isForeign = true := by
  cases n <;> first | rfl | cases h

theorem exportedNames_eq_nil (h : n.isExport = false) : n.exportedNames = [] := by
  cases n <;> first | rfl | cases h

/-- Not to be an export lasts, whatever else is put together. -/
theorem lasting_isExport : Lasting fun n => n.isExport = false where
  moduleItem s _ h := (isExport_setSlots s _).trans h
  markup _ _ h := (isExport_setSlots _ _).trans h
  text _ := rfl
  container _ := rfl
  named _ _ := rfl
  spread _ := rfl
  element _ _ _ _ _ := rfl

theorem unexported_iff : n.Unexported ↔ ∀ m ∈ n.descendants, m.isExport = false := by
  refine ⟨fun h m hm => ?_, fun h m hm _ => h m hm⟩
  rcases hexport : m.isExport with _ | _
  · rfl
  · exact hexport ▸ h m hm (isForeign_of_isExport hexport)

/-- A tree has no exports if what is put into its fields has none. -/
theorem Unexported.firm (h : n.Unexported) :
    n.Holds (Visit.Firm fun m => m.isExport = false) := fun m hm hforeign =>
  ⟨h m hm hforeign, fun _ => (isExport_setSlots _ m).trans (h m hm hforeign)⟩

theorem exports_eq (n : Node) : n.exports = n.exportedNames ++ n.parts.flatMap exports := by
  rw [exports, descendants_eq, flatMap_cons, flatMap_assoc]
  rfl

theorem exports_eq_nil (h : n.Unexported) : n.exports = [] :=
  flatMap_eq_nil_iff.2 fun m hm => exportedNames_eq_nil (unexported_iff.1 h m hm)

/-- What a statement exports, if nothing below it does. -/
theorem exports_of_parts (h : ∀ c ∈ n.parts, c.Unexported) : n.exports = n.exportedNames := by
  rw [exports_eq, flatMap_eq_nil_iff.2 fun c hc => exports_eq_nil (h c hc), append_nil]

/-- The exports of a program are those of its statements. -/
theorem exports_withStatements {program : Node} {body statements : List Node}
    (h : program.statements = .ok body) :
    (program.withStatements statements).exports = statements.flatMap exports := by
  have hnodes : (Slot.list (statements.map some)).nodes = statements := by simp [Slot.nodes]
  obtain rfl | rfl | rfl := statements_cases h <;>
    simp [withStatements, exports_eq, exportedNames, parts, Field.list, hnodes]

/-! ## Exports that a pass makes -/

/-- An export as a pass makes it: of a key, which it may declare. -/
inductive Made : Text → (declared : Bool) → Node → Prop
  | bound (key binding : Text) : Made key false (exportBinding key binding)
  | default {value : Node} (h : value.Unexported) : Made defaultKey false (exportDefault value)
  | declared (key : Text) {value : Node} (h : value.Unexported) :
    Made key true (exportNamed (some
      (varDecl .constant [declarator (identifier key) (some value)])) [] none)

variable {key : Text} {declared : Bool}

/-- An export of a value declares its key, unless it is the default export. -/
theorem made_exportValue (key : Text) {value : Node} (h : value.Unexported) :
    Made key (key != defaultKey) (exportValue key value) := by
  unfold exportValue
  split
  · rename_i hdefault
    subst hdefault
    exact bne_self_eq_false defaultKey ▸ .default h
  · rename_i hkey
    exact (bne_iff_ne.2 hkey).symm ▸ .declared key h

theorem Made.isExport (h : Made key declared n) : n.isExport = true := by
  cases h with
  | bound key binding =>
    unfold exportBinding
    split <;> rfl
  | default h => rfl
  | declared key h => rfl

/-- An export that the pass makes exports its key, and nothing below it does. -/
theorem Made.exportedNames (h : Made key declared n) :
    n.exportedNames = [key] ∧ n.exports = [key] := by
  suffices hparts : (∀ c ∈ n.parts, c.Unexported) ∧ n.exportedNames = [key] from
    ⟨hparts.2, (exports_of_parts hparts.1).trans hparts.2⟩
  cases h with
  | bound key binding =>
    unfold exportBinding
    split
    · rename_i hdefault
      exact ⟨forall_mem_singleton.2 holds_identifier, hdefault ▸ rfl⟩
    · refine ⟨forall_mem_singleton.2 (holds_iff.2 ⟨fun _ => rfl, ?_⟩), ?_⟩
      · refine forall_mem_cons.2 ⟨holds_identifier, forall_mem_singleton.2 ?_⟩
        split
        · exact holds_identifier
        · exact holds_literal
      · split <;> rfl
  | default h => exact ⟨forall_mem_singleton.2 h, rfl⟩
  | declared key h =>
    refine ⟨forall_mem_singleton.2 ?_, rfl⟩
    refine (holds_compositional _).varDecl.2 (forall_mem_singleton.2 ?_)
    exact (holds_compositional _).declarator.2
      ⟨holds_identifier, fun m hm => Option.some.inj hm ▸ h⟩

end Node

/-! ## Renaming -/

namespace Renaming

variable (r : Renaming) {n : Node}

/-- A renaming makes no export. -/
theorem unexported_replaceAll (h : n.Unexported) :
    (n.replaceAll (fun _ => r.rename?) false).Unexported :=
  h.replaceAll lasting_isExport.toStable
    (fun _ _ _ hm => ⟨(rename?_holds (p := fun m => m.isExport = false) hm).1,
      fun _ => (rename?_holds hm).2⟩) false

theorem unexported_inStatement (h : n.Unexported) : (r.inStatement n).Unexported := by
  unfold inStatement
  split
  · exact h
  · exact r.unexported_replaceAll h

/-- A renaming of an export renames the binding, and not the key. -/
theorem replaceAll_exportBinding (key binding : Text) :
    (exportBinding key binding).replaceAll (fun _ => r.rename?) false =
      exportBinding key (r.apply binding) := by
  unfold exportBinding
  split
  · rfl
  · split <;> rfl

/-- A renamed export is one of the same key, unless it declares the key, which
    is renamed then. -/
theorem made_inStatement {key : Text} {declared : Bool} (h : Made key declared n) :
    Made (if declared then r.apply key else key) declared (r.inStatement n) := by
  by_cases hnone : r.entries.isEmpty = true
  · have hkey : (if declared then r.apply key else key) = key := by
      rw [apply_of_entries_eq_nil (List.isEmpty_iff.1 hnone), ite_self]
    rw [inStatement, if_pos hnone, hkey]
    exact h
  · rw [inStatement, if_neg hnone]
    cases h with
    | bound key binding => exact r.replaceAll_exportBinding key binding ▸ .bound key _
    | default h => exact .default (r.unexported_replaceAll h)
    | declared key h => exact .declared _ (r.unexported_replaceAll h)

end Renaming

/-! ## Runs -/

/-- A statement is an export assignment of a key once it is visited. -/
def Visit.Assigns (e : Surroundings) (stmt : Node) (key : Text) : Prop :=
  ∃ outside s s' n binding, (ofNode e stmt).spliced false outside s = .ok ([n], s') ∧
    n.exportAssignment? = some (key, binding)

namespace Pass

variable {e : Surroundings} {s s' : PassState} {done rest done' : List Node}
  {stmt declaration : Node}

/-- A statement has no export in it, or is one that the pass made, with a key in
    place of a variable. -/
def Shows (s : PassState) (n : Node) : Prop :=
  n.Unexported ∨ ∃ key declared, Made key declared n ∧
    (declared = true → key ≠ defaultKey ∧ ∃ binding, (key, binding) ∈ s.extracted)

theorem Shows.mono {n : Node} (h : Shows s n) (hs : s.extracted ⊆ s'.extracted) : Shows s' n := by
  refine h.imp_right fun ⟨key, declared, hmade, hdeclared⟩ => ⟨key, declared, hmade, fun hd => ?_⟩
  obtain ⟨hkey, binding, hmem⟩ := hdeclared hd
  exact ⟨hkey, binding, hs hmem⟩

theorem Shows.unexported {n : Node} (h : Shows s n) (hn : n.isExport = false) : n.Unexported := by
  refine h.resolve_right ?_
  rintro ⟨key, declared, hmade, -⟩
  exact Bool.false_ne_true (hn.symm.trans hmade.isExport)

/-- What is left of a declaration exports nothing, as it did not. -/
theorem exports_declaration (kind : VariableKind) {ds : List Node} (h : ∀ d ∈ ds, d.Unexported) :
    (∀ n ∈ Visit.declaration kind ds, n.Unexported) ∧
      (Visit.declaration kind ds).flatMap exports = [] := by
  suffices hall : ∀ n ∈ Visit.declaration kind ds, n.Unexported from
    ⟨hall, flatMap_eq_nil_iff.2 fun n hn => exports_eq_nil (hall n hn)⟩
  intro n hn
  rw [Visit.declaration] at hn
  split at hn
  · exact absurd hn not_mem_nil
  · exact mem_singleton.1 hn ▸ (holds_compositional _).varDecl.2 h

/-- One more export is made, and all others stay. -/
theorem Exported.tells {key binding : Text}
    (h : Exported s done stmt rest key binding done' declaration s')
    (hdone : ∀ n ∈ done, Shows s n) :
    (∀ n ∈ done' ++ [declaration], Shows s' n) ∧ (done' ++ [declaration]).flatMap exports =
      done.flatMap exports ++ [key] ∧ s'.tally.exports = s.tally.exports + 1 ∧
      s'.exported = if s.exported.contains key then s.exported else s.exported ++ [key] := by
  cases h with
  | bound exported hnoted =>
    refine ⟨forall_mem_append.2 ⟨hdone, forall_mem_singleton.2 ?_⟩, ?_, rfl, hnoted⟩
    · exact .inr ⟨key, false, .bound key binding, fun h => Bool.noConfusion h⟩
    · rw [flatMap_append, flatMap_singleton, (Made.bound key binding).exportedNames.2]
  | @moved remains init h exported hnoted =>
    -- the value leaves its declaration: what is left of this one exports
    -- nothing, as the declaration did not
    obtain ⟨ss, kind, before, after, ts, rfl, rfl⟩ := h.remains_eq
    obtain ⟨hss, hdefinition, hts⟩ : (∀ n ∈ ss, Shows s n) ∧ Shows s _ ∧ ∀ n ∈ ts, Shows s n := by
      simpa only [forall_mem_append, forall_mem_cons] using hdone
    have hdefinition := hdefinition.unexported rfl
    obtain ⟨hbefore, hdeclarator, hafter⟩ :
        (∀ d ∈ before, d.Unexported) ∧ Unexported _ ∧ ∀ d ∈ after, d.Unexported := by
      simpa only [forall_mem_append, forall_mem_cons] using
        (holds_compositional _).varDecl.1 hdefinition
    obtain ⟨hleft, hleftExports⟩ :=
      exports_declaration kind (forall_mem_append.2 ⟨hbefore, hafter⟩)
    have hinit := ((holds_compositional _).declarator.1 hdeclarator).2 init rfl
    have hmade := made_exportValue key (movedValue_holds lasting_isExport (r := s.renames) hinit)
    have hgrows : s.extracted ⊆ s.extracted ++ [(key, binding)] := subset_append_left _ _
    refine ⟨forall_mem_append.2
      ⟨?_, forall_mem_singleton.2
        (.inr ⟨key, _, hmade, fun hdeclared => ?_⟩)⟩, ?_, rfl, hnoted⟩
    · refine forall_mem_append.2
        ⟨forall_mem_append.2 ⟨?_, fun n hn => .inl (hleft n hn)⟩, ?_⟩
      · exact fun n hn => (hss n hn).mono hgrows
      · exact fun n hn => (hts n hn).mono hgrows
    · exact ⟨bne_iff_ne.1 hdeclared, binding, mem_append_right _ (mem_singleton_self _)⟩
    · simp only [flatMap_append, flatMap_cons, flatMap_nil, hleftExports,
        exports_eq_nil hdefinition, hmade.exportedNames.2, append_nil, nil_append]

namespace Stage

variable {p q : Stage} {visited : List Node}

/-- No key is noted twice. -/
theorem nodup_noting {keys : List Text} (h : keys.Nodup) (key : Text) :
    (if keys.contains key then keys else keys ++ [key]).Nodup := by
  split
  · exact h
  · rename_i hnew
    refine nodup_append.2 ⟨h, nodup_singleton key, fun k hk k' hk' => ?_⟩
    rw [mem_singleton.1 hk']
    rintro rfl
    exact hnew (contains_iff_mem.2 hk)

/-- A key is noted once it is exported. -/
theorem mem_noting {keys : List Text} {key k : Text} :
    k ∈ (if keys.contains key then keys else keys ++ [key]) ↔ k ∈ keys ∨ k = key := by
  split
  · rename_i hold
    refine ⟨.inl, fun hk => hk.elim id ?_⟩
    rintro rfl
    exact contains_iff_mem.1 hold
  · exact mem_append.trans (or_congr_right mem_singleton)

/-- What the exports so far tell: they are counted, their keys are noted, and
    each stands for an export assignment among the visited statements, in order.
    -/
structure Tells (e : Surroundings) (visited : List Node) (q : Stage) : Prop where
  shows : ∀ n ∈ q.done, Shows q.state n
  counted : q.state.tally.exports = (q.done.flatMap exports).length
  nodup : q.state.exported.Nodup
  noted : ∀ key, key ∈ q.state.exported ↔ key ∈ q.done.flatMap exports
  assigned : ∃ sources, sources.Sublist visited ∧
    List.Forall₂ (Visit.Assigns e) sources (q.done.flatMap exports)

/-- One visit exports at most one key more: either the statement makes no
    export, or it is an export assignment once it is visited, and its key is
    noted. -/
theorem Advances.tells {stmt : Node} {rest : List Node} (h : Advances e p q)
    (hrest : p.rest = stmt :: rest) (hp : p.Tells e visited) (hstmt : stmt.Unexported) :
    q.rest = rest ∧ q.Tells e (visited ++ [stmt]) := by
  obtain @⟨done, done', stmt', rest', s, s', h⟩ := h
  obtain ⟨rfl, rfl⟩ := cons.inj hrest
  refine ⟨rfl, ?_⟩
  obtain ⟨ns, s₁, hns, hcases⟩ := step_cases h
  -- the visit makes no export
  have hreach := ((Visit.ofNode_visits e stmt').spliced hns).1
  obtain ⟨hexported, hcounted⟩ := hreach.exported_eq
  have hvisited := ((Visit.ofNode_holds lasting_isExport e stmt').spliced hns).2 hstmt.firm
  have hdone : ∀ n ∈ done, Shows s₁ n :=
    fun n hn => (hp.shows n hn).mono hreach.grows.extracted.subset
  obtain ⟨sources, hsources, hassigned⟩ := hp.assigned
  obtain ⟨rfl, rfl⟩ | ⟨n, key, binding, remains, declaration, rfl, hassignment, rfl, hmakes⟩ :=
    hcases
  · have hsame : (done ++ ns).flatMap exports = done.flatMap exports := by
      have hnone := flatMap_eq_nil_iff.2 fun n hn => exports_eq_nil (hvisited n hn)
      rw [flatMap_append, hnone, append_nil]
    exact
      { shows := forall_mem_append.2 ⟨hdone, fun n hn => .inl (hvisited n hn)⟩
        counted := hsame.symm ▸ hcounted.trans hp.counted
        nodup := hexported.symm ▸ hp.nodup
        noted := fun key => hsame.symm ▸ hexported.symm ▸ hp.noted key
        assigned := ⟨sources, hsources.trans (sublist_append_left _ _),
          hsame.symm ▸ hassigned⟩ }
  · -- it stands for an export assignment, and its key is noted
    obtain ⟨hshows, hexports, hcount, hnoted⟩ := hmakes.tells hdone
    rw [hexported] at hnoted
    exact
      { shows := hshows
        counted := by
          rw [hexports, hcount, hcounted, hp.counted, length_append, length_singleton]
        nodup := hnoted ▸ nodup_noting hp.nodup key
        noted := fun k => by
          rw [hnoted, mem_noting, hexports, mem_append, mem_singleton, hp.noted]
        assigned := by
          refine ⟨sources ++ [stmt'], hsources.append (List.Sublist.refl _), hexports.symm ▸ ?_⟩
          exact rel_append hassigned (.cons ⟨_, _, _, n, binding, hns, hassignment⟩ .nil) }

/-- What the exports tell stays right through a run. -/
theorem Leads.tells (h : Leads e p q) (hrest : ∀ n ∈ p.rest, n.Unexported) (hp : p.Tells e []) :
    ∃ visited, p.rest = visited ++ q.rest ∧ q.Tells e visited := by
  induction h with
  | refl => exact ⟨[], rfl, hp⟩
  | @tail q r hlead hstep ih =>
    obtain ⟨visited, hsplit, hq⟩ := ih
    have hnext := hstep
    obtain @⟨done, done', stmt, rest, s, s', -⟩ := hnext
    have hstmt := hrest stmt (hsplit ▸ mem_append_right _ mem_cons_self)
    obtain ⟨-, hr⟩ := hstep.tells rfl hq hstmt
    exact ⟨visited ++ [stmt], by rw [hsplit, append_assoc]; rfl, hr⟩

end Stage

/-- Before the visits, nothing is exported. -/
theorem exported_start (e : Surroundings) (program : Node) (body : List Node) :
    (start e program body).exported = [] ∧ (start e program body).tally.exports = 0 := by
  unfold start
  dsimp only
  split
  · refine foldlRecOn (motive := fun s : PassState => s.exported = [] ∧ s.tally.exports = 0) _
      _ ⟨rfl, rfl⟩ fun s hs said _ => ?_
    unfold applyDisplayName
    split <;> exact hs
  · exact ⟨rfl, rfl⟩

end Pass

/-! ## The end of a pass -/

/-- What becomes of the name of an export: it stays, unless declared. -/
def PassState.ExportsAs (s : PassState) (key name : Text) : Prop :=
  name = key ∨ key ≠ defaultKey ∧ (∃ binding, (key, binding) ∈ s.extracted) ∧
    name = s.renames.apply key

/-- Statements without exports, and exports as a pass makes them. -/
def Node.IsSettled (n : Node) : Prop :=
  n.Unexported ∨ ∃ key declared, Made key declared n

namespace Node

variable {n : Node} {ns : List Node}

theorem IsSettled.exports_eq_nil (h : n.IsSettled) (hn : n.isExport = false) : n.exports = [] := by
  rcases h with h | ⟨key, declared, hmade⟩
  · exact Node.exports_eq_nil h
  · exact absurd (hn.symm.trans hmade.isExport) Bool.false_ne_true

/-- An export exports one name, and nothing below a statement exports any. -/
theorem IsSettled.exports (h : n.IsSettled) :
    n.exports = n.exportedNames ∧ n.exports.length = if n.isExport then 1 else 0 := by
  rcases h with h | ⟨key, declared, hmade⟩
  · have hn := unexported_iff.1 h n (descendants_eq n ▸ mem_cons_self)
    rw [Node.exports_eq_nil h, exportedNames_eq_nil hn, hn]
    exact ⟨rfl, rfl⟩
  · rw [hmade.exportedNames.1, hmade.exportedNames.2, hmade.isExport]
    exact ⟨rfl, rfl⟩

/-- Each export statement that a pass makes exports one name. -/
theorem length_filter_isExport (h : ∀ n ∈ ns, n.IsSettled) :
    (ns.filter isExport).length = (ns.flatMap Node.exports).length := by
  induction ns with
  | nil => rfl
  | cons n ns ih =>
    obtain ⟨hn, hns⟩ := forall_mem_cons.1 h
    have hlength := hn.exports.2
    rw [flatMap_cons, length_append, hlength, ← ih hns, filter_cons]
    split
    · rw [length_cons, Nat.add_comm]
    · rw [Nat.zero_add]

/-- Statements that go export nothing. -/
theorem flatMap_exports_filter {p : Node → Bool} (h : ∀ n ∈ ns, p n = false → n.exports = []) :
    (ns.filter p).flatMap Node.exports = ns.flatMap Node.exports := by
  induction ns with
  | nil => rfl
  | cons n ns ih =>
    obtain ⟨hn, hns⟩ := forall_mem_cons.1 h
    rw [filter_cons, flatMap_cons, ← ih hns]
    split
    · rw [flatMap_cons]
    · rename_i hp
      rw [hn (Bool.not_eq_true _ ▸ hp), nil_append]

/-- What is left over of exports is no export statement. -/
theorem isExport_of_isExportLeftover {exported : List Text}
    (h : n.isExportLeftover exported = true) : n.isExport = false := by
  cases n <;> first | rfl | exact Bool.noConfusion h

/-- Nor is a helper. -/
theorem isExport_of_definesOneOf {names : List Text} (h : n.definesOneOf names = .ok true) :
    n.isExport = false := by
  cases n <;> first | rfl | exact Bool.noConfusion (Except.ok.inj h)

end Node

theorem Import.unexported_declaration (i : Import) : i.declaration.Unexported := by
  refine unexported_iff.2 ?_
  unfold declaration
  cases i.kind <;> exact forall_mem_cons.2
    ⟨rfl, forall_mem_cons.2
      ⟨rfl, forall_mem_cons.2 ⟨rfl, forall_mem_cons.2 ⟨rfl, forall_mem_nil _⟩⟩⟩⟩

namespace Pass

variable {e : Surroundings} {s : PassState} {body kept : List Node}

/-- Renaming a statement settles it, and leaves its exports but for the keys
    that they declare. -/
theorem Shows.inStatement {n : Node} (h : Shows s n) :
    (s.renames.inStatement n).IsSettled ∧
      List.Forall₂ s.ExportsAs n.exports (s.renames.inStatement n).exports := by
  rcases h with h | ⟨key, declared, hmade, hdeclared⟩
  · have hrenamed := s.renames.unexported_inStatement h
    exact ⟨.inl hrenamed, by rw [exports_eq_nil h, exports_eq_nil hrenamed]; exact .nil⟩
  · have hrenamed := s.renames.made_inStatement hmade
    refine ⟨.inr ⟨_, declared, hrenamed⟩, ?_⟩
    rw [hmade.exportedNames.2, hrenamed.exportedNames.2]
    refine .cons ?_ .nil
    split
    · rename_i hd
      exact .inr ⟨(hdeclared hd).1, (hdeclared hd).2, rfl⟩
    · exact .inl rfl

/-- Renaming and the removal of leftovers keep all exports. -/
theorem renamed_exports (h : ∀ n ∈ body, Shows s n) :
    (∀ n ∈ renamed e s body, n.IsSettled) ∧
      List.Forall₂ s.ExportsAs (body.flatMap exports) ((renamed e s body).flatMap exports) := by
  have hsettled : ∀ n ∈ body.map s.renames.inStatement, n.IsSettled := fun n hn => by
    obtain ⟨m, hm, rfl⟩ := mem_map.1 hn
    exact (h m hm).inStatement.1
  have hrenamed : List.Forall₂ s.ExportsAs (body.flatMap exports)
      ((body.map s.renames.inStatement).flatMap exports) := by
    clear hsettled
    induction body with
    | nil => exact .nil
    | cons n body ih =>
      obtain ⟨hn, hbody⟩ := forall_mem_cons.1 h
      exact rel_append hn.inStatement.2 (ih hbody)
  refine ⟨fun n hn => hsettled n (renamed_subset e s body hn), ?_⟩
  rw [renamed, Renaming.sweep_program]
  dsimp only
  split
  · rw [flatMap_exports_filter fun n hn hleft => ?_]
    · exact hrenamed
    · exact (hsettled n hn).exports_eq_nil (isExport_of_isExportLeftover (by simpa using hleft))
  · exact hrenamed

/-- So does the removal of helpers. -/
theorem dropHelpers_exports {names : List Text} (h : dropHelpers names body = .ok kept)
    (hbody : ∀ n ∈ body, n.IsSettled) :
    (∀ n ∈ kept, n.IsSettled) ∧ kept.flatMap exports = body.flatMap exports := by
  obtain ⟨p, rfl, hp⟩ := dropHelpers_eq_filter h
  refine ⟨fun n hn => hbody n (mem_of_mem_filter hn),
    flatMap_exports_filter fun n hn hgoes => ?_⟩
  exact (hbody n hn).exports_eq_nil (isExport_of_definesOneOf ((hp n hn).1 hgoes))

/-- Imports add no exports. -/
theorem splice_exports (added : List Import) (hbody : ∀ n ∈ body, n.IsSettled) :
    (∀ n ∈ splice added body, n.IsSettled) ∧ (splice added body).flatMap exports =
      body.flatMap exports := by
  have himports : ∀ n ∈ added.map Import.declaration, n.Unexported := fun n hn => by
    obtain ⟨i, -, rfl⟩ := mem_map.1 hn
    exact i.unexported_declaration
  refine ⟨fun n hn => (mem_splice.1 hn).elim (fun hn => .inl (himports n hn)) (hbody n), ?_⟩
  rw [splice, flatMap_append, flatMap_append, flatMap_eq_nil_iff.2 fun n hn =>
    exports_eq_nil (himports n hn), append_nil, ← flatMap_append,
    takeWhile_append_dropWhile]

end Pass

/-- The exports of a program that had none: `keys` are those of the export
    assignments, in the order of the statements `body`. -/
structure Outcome.Tells (o : Outcome) (body : List Node) (keys : List Text) : Prop where
  assigned : ∃ sources, sources.Sublist body ∧
    List.Forall₂ (Visit.Assigns o.surroundings) sources keys
  counted : o.state.tally.exports = keys.length
  nodup : o.state.exported.Nodup
  noted : ∀ key, key ∈ o.state.exported ↔ key ∈ keys
  exports : List.Forall₂ o.state.ExportsAs keys o.program.exports

namespace Outcome

variable {o : Outcome} {program : Node} {body : List Node}

/-- A pass makes one export for each assignment, and notes its key. -/
theorem Ran.tells (h : o.Ran program body) (hprogram : program.Unexported) :
    (∃ keys, o.Tells body keys) ∧ (∀ n ∈ Pass.splice o.added o.kept, n.IsSettled) ∧
      o.program.exports = (Pass.splice o.added o.kept).flatMap Node.exports := by
  have hbody := statements_inherit (holds_compositional _) h.statements hprogram
  obtain ⟨hnone, hzero⟩ := Pass.exported_start o.surroundings program body
  obtain ⟨visited, hvisited, htells⟩ := Pass.Stage.Leads.tells h.leads hbody
    { shows := forall_mem_nil _
      counted := hzero
      nodup := hnone.symm ▸ nodup_nil
      noted := fun key => by rw [hnone]; rfl
      assigned := ⟨[], List.Sublist.refl _, .nil⟩ }
  obtain rfl : body = visited := hvisited.trans (append_nil _)
  -- from the statements that the visits leave to those of the outcome
  obtain ⟨hrenamed, hnames⟩ := Pass.renamed_exports (e := o.surroundings) htells.shows
  obtain ⟨hkept, hkeptExports⟩ := Pass.dropHelpers_exports h.drops hrenamed
  obtain ⟨hspliced, hsplicedExports⟩ := Pass.splice_exports o.added hkept
  have hexports : o.program.exports = (Pass.splice o.added o.kept).flatMap Node.exports := by
    rw [h.program_eq, exports_withStatements h.statements]
  refine ⟨⟨o.walked.flatMap Node.exports, ?_⟩, hspliced, hexports⟩
  exact
    { assigned := htells.assigned
      counted := htells.counted
      nodup := htells.nodup
      noted := htells.noted
      exports := by rwa [hexports, hsplicedExports, hkeptExports] }

/-- Where no declared key is renamed, the keys are what is exported. -/
theorem Tells.exports_eq {keys : List Text} (h : o.Tells body keys)
    (hkeys : ∀ entry ∈ o.state.extracted, entry.1 ≠ defaultKey →
      o.state.renames.apply entry.1 = entry.1) : o.program.exports = keys := by
  refine (forall₂_eq_eq_eq ▸ h.exports.imp fun key name hname =>
    ?_ : keys = o.program.exports).symm
  obtain rfl | ⟨hkey, ⟨binding, hmem⟩, rfl⟩ := hname
  · rfl
  · exact (hkeys _ hmem hkey).symm

/-- There are as many noted keys as exports if and only if none is twice. -/
theorem Tells.nodup_iff {keys : List Text} (h : o.Tells body keys) :
    keys.Nodup ↔ o.state.tally.exports = o.state.exported.length := by
  have hperm : o.state.exported.Perm keys.dedup :=
    (perm_ext_iff_of_nodup h.nodup (nodup_dedup keys)).2 fun key =>
      (h.noted key).trans mem_dedup.symm
  rw [h.counted, hperm.length_eq, ← dedup_eq_self]
  exact ⟨fun hsame => by rw [hsame],
    fun hlength => (dedup_sublist keys).eq_of_length hlength.symm⟩

end Outcome

/-- A pass over a program without exports makes one export for each export
    assignment that it meets, and it exports the keys that the pass notes, those
    aside that it declares and renames. If it renames none of these, no name is
    exported twice if and only if the pass counts as many exports as it notes
    keys. -/
theorem exports_nodup_iff {config : Config} {program : Node} {o : Outcome}
    (h : reconstruct config program = .ok o)
    (hprogram : ∀ n ∈ program.descendants, n.isExport = false) :
    ∃ body keys, program.statements = .ok body ∧ o.Tells body keys ∧
      ((∀ entry ∈ o.state.extracted, entry.1 ≠ defaultKey →
          o.state.renames.apply entry.1 = entry.1) →
        (o.program.exports.Nodup ↔ o.state.tally.exports = o.state.exported.length)) := by
  obtain ⟨body, hran⟩ := reconstruct_ran h
  obtain ⟨⟨keys, htells⟩, -, -⟩ := hran.tells (unexported_iff.2 hprogram)
  exact ⟨body, keys, hran.statements, htells,
    fun hkeys => htells.exports_eq hkeys ▸ htells.nodup_iff⟩

/-- `exports.key = x;` -/
def exportingAs (key x : Text) : Node :=
  .exprStmt (.assignment "=" (.member (.identifier "exports") (.identifier key) false false)
    (.identifier x))

/-- `module.exports = x;` -/
def exportingWhole (x : Text) : Node :=
  .exprStmt (.assignment "="
    (.member (.identifier "module") (.identifier "exports") false false) (.identifier x))

/-- `var a = null; var b = null; exports.a = a; exports.c = b; module.exports =
    b;` -/
def exportedThrice : Node :=
  .program [declaring "a" (.literal .null none),
    declaring "b" (.literal .null none), exportingAs "a" "a",
    exportingAs "c" "b", exportingWhole "b"]

/-- A variable is exported with its value, and another one under two names. -/
theorem exports_nodup_iff_exportedThrice :
    ∃ o, reconstruct {} exportedThrice = .ok o ∧
      (∀ n ∈ exportedThrice.descendants, n.isExport = false) ∧
      o.program.exports = [ofString "a", ofString "c", ofString "default"] ∧
      o.state.extracted = [(ofString "a", ofString "a")] ∧ o.program.exports.Nodup := by
  have hprogram : ∀ n ∈ exportedThrice.descendants, n.isExport = false := by decide +kernel
  let P (o : Outcome) : Prop :=
    o.program.exports = [ofString "a", ofString "c", ofString "default"] ∧
      o.state.extracted = [(ofString "a", ofString "a")] ∧
        (∀ entry ∈ o.state.extracted, entry.1 ≠ defaultKey →
          o.state.renames.apply entry.1 = entry.1) ∧
          o.state.tally.exports = o.state.exported.length
  have hP : ∃ o, reconstruct {} exportedThrice = .ok o ∧ P o := exists_outcome (by decide +kernel)
  obtain ⟨o, ho, hexports, hextracted, hkeys, hcount⟩ := hP
  obtain ⟨-, -, -, -, hiff⟩ := exports_nodup_iff ho hprogram
  exact ⟨o, ho, hprogram, hexports, hextracted, (hiff hkeys).2 hcount⟩

/-- `var a = null; exports.k = a; exports.k = a;` -/
def exportedTwice : Node :=
  .program [declaring "a" (.literal .null none), exportingAs "k" "a", exportingAs "k" "a"]

/-- Two assignments to one key make two exports of it. -/
theorem exports_not_nodup :
    (∀ n ∈ exportedTwice.descendants, n.isExport = false) ∧
      ∃ o, reconstruct {} exportedTwice = .ok o ∧ ¬o.program.exports.Nodup :=
  ⟨by decide +kernel, exists_outcome (by decide +kernel)⟩

/-! ## Leftovers -/

namespace Node

variable {n : Node} {x key : Text} {keys : List Text}

/-- `Object.defineProperty(exports, "__esModule", …)`, or an assignment to
    `exports.__esModule`. -/
inductive MarksModule : Node → Prop
  | defined {e property : Node} {computed o o' : Bool} {spelling : Option Text} {others : List Node}
    (hname : property.propertyName? computed = some (ofString "defineProperty"))
    (h : e.ungroup = call (member (identifier "Object") property computed o)
      (identifier "exports" :: literal (.string "__esModule") spelling :: others) o') :
        MarksModule (exprStmt e)
  | assigned {e property value : Node} {operator : Text} {computed o : Bool}
    (hname : property.propertyName? computed = some (ofString "__esModule"))
    (h : e.ungroup = assignment operator
      (member (identifier "exports") property computed o) value) :
    MarksModule (exprStmt e)

/-- An expression `exports.a = exports.b = … = void x`, with its keys. -/
inductive Announces : Node → List Text → Prop
  | void {e argument : Node} (h : e.ungroup = unary "void" argument) : Announces e []
  | key {e left property value : Node} {computed o : Bool} {key : Text} {keys : List Text}
    (h : e.ungroup = assignment "=" left value)
    (hleft : left.ungroup = member (identifier "exports") property computed o)
    (hkey : property.propertyName? computed = some key) (hvalue : Announces value keys) :
    Announces e (key :: keys)

/-- A property of a name, whichever way its key is written. -/
theorem isMemberOf_iff {receiver : Text} : n.isMemberOf receiver x = true ↔
    ∃ property computed o, property.propertyName? computed = some x ∧
    n = member (identifier receiver) property computed o := by
  constructor
  · intro h
    obtain ⟨hname, hreceiver⟩ := Bool.and_eq_true_iff.1 h
    obtain ⟨m, hm, hnamed⟩ := (Option.any_eq_true ..).1 hreceiver
    obtain ⟨property, computed, o, rfl⟩ := receiver?_eq_some.1 hm
    exact ⟨property, computed, o, beq_iff_eq.1 hname, isNamed_iff.1 hnamed ▸ rfl⟩
  · rintro ⟨property, computed, o, hname, rfl⟩
    exact Bool.and_eq_true_iff.2 ⟨beq_iff_eq.2 hname, beq_self_eq_true _⟩

theorem isModuleMarker_iff : n.isModuleMarker = true ↔ n.MarksModule := by
  constructor
  · intro h
    unfold isModuleMarker at h
    split at h
    · split at h
      · rename_i heq
        simp only [Bool.and_eq_true, beq_iff_eq] at h
        obtain ⟨⟨hcallee, htarget⟩, hkey⟩ := h
        obtain ⟨property, computed, o, hname, rfl⟩ := isMemberOf_iff.1 hcallee
        obtain ⟨spelling, rfl⟩ := stringValue?_eq_some.1 hkey
        exact .defined hname (isNamed_iff.1 htarget ▸ heq)
      · rename_i heq
        obtain ⟨property, computed, o, hname, rfl⟩ := isMemberOf_iff.1 h
        exact .assigned hname heq
      · cases h
    · cases h
  · intro h
    cases h with
    | defined hname h =>
      rw [isModuleMarker, h]
      exact Bool.and_eq_true_iff.2
        ⟨Bool.and_eq_true_iff.2 ⟨isMemberOf_iff.2 ⟨_, _, _, hname, rfl⟩,
          beq_self_eq_true _⟩, beq_self_eq_true _⟩
    | assigned hname h =>
      rw [isModuleMarker, h]
      exact isMemberOf_iff.2 ⟨_, _, _, hname, rfl⟩

theorem placeholderKeys?_ungroup (e : Node) : e.ungroup.placeholderKeys? = e.placeholderKeys? := by
  fun_induction ungroup e with
  | case1 e ih => exact ih
  | case2 => rfl

theorem announces_parenthesized {e : Node} (h : e.Announces keys) :
    (parenthesized e).Announces keys := by
  cases h with
  | void h => exact .void h
  | key h hleft hkey hvalue => exact .key h hleft hkey hvalue

theorem placeholderKeys?_eq_some {e : Node} :
    e.placeholderKeys? = some keys ↔ e.Announces keys := by
  constructor
  · intro h
    fun_induction placeholderKeys? e generalizing keys with
    | case1 e ih => exact announces_parenthesized (ih h)
    | case2 left value receiver property computed o hleft hreceiver ih =>
      obtain ⟨key, hkey, h⟩ := Option.bind_eq_some_iff.1 h
      obtain ⟨keys, hkeys, h⟩ := Option.bind_eq_some_iff.1 h
      cases h
      exact .key rfl (isNamed_iff.1 hreceiver ▸ hleft) hkey (ih hkeys)
    | case6 e hplain hother hvoid =>
      cases h
      unfold isVoid at hvoid
      split at hvoid
      · obtain rfl := beq_iff_eq.1 hvoid
        exact .void rfl
      · cases hvoid
    | _ => cases h
  · intro h
    induction h with
    | void h =>
      rw [← placeholderKeys?_ungroup, h]
      rfl
    | key h hleft hkey hvalue ih =>
      rw [← placeholderKeys?_ungroup, h, placeholderKeys?, if_pos rfl, hleft]
      simp only [isNamed_iff.2 rfl, hkey, ih]
      rfl

/-- A statement `exports.a = … = void x` whose keys are all among some. -/
def AnnouncesOnly (n : Node) (exported : List Text) : Prop :=
  ∃ e keys, n = exprStmt e ∧ e.Announces keys ∧ keys ≠ [] ∧ ∀ key ∈ keys, key ∈ exported

/-- The test for placeholders finds exactly these. -/
theorem isPlaceholder_iff {exported : List Text} :
    n.isPlaceholder exported = true ↔ n.AnnouncesOnly exported := by
  constructor
  · intro h
    unfold isPlaceholder at h
    split at h
    · split at h
      · rename_i hkeys
        refine ⟨_, _, rfl, placeholderKeys?_eq_some.1 hkeys,
          cons_ne_nil _ _, fun key hkey => ?_⟩
        exact contains_iff_mem.1 (all_eq_true.1 h key hkey)
      · cases h
    · cases h
  · rintro ⟨e, keys, rfl, hannounces, hne, hkeys⟩
    obtain ⟨key, keys, rfl⟩ := exists_cons_of_ne_nil hne
    rw [isPlaceholder, placeholderKeys?_eq_some.2 hannounces]
    exact all_eq_true.2 fun key hkey => contains_iff_mem.2 (hkeys key hkey)

end Node

namespace Pass.Stage

variable {e : Surroundings} {p q : Stage}

/-- Without imports, no variable gets a new name once the visits begin. -/
theorem Leads.renames_eq (he : e.config.imports = false) (h : Leads e p q) :
    q.state.renames = p.state.renames := by
  induction h with
  | refl => rfl
  | tail _ hstep ih =>
    obtain @⟨done, done', stmt, rest, s, s', h⟩ := hstep
    obtain ⟨ns, s₁, hns, hcases⟩ := step_cases h
    have hvisit : s₁.renames = s.renames := (Visit.ofNode_renames he s.renames stmt).spliced hns rfl
    obtain ⟨-, rfl⟩ | ⟨visited, key, binding, remains, declaration, -, -, -, hexported⟩ := hcases
    · exact hvisit.trans ih
    · cases hexported <;> exact hvisit.trans ih

/-- Where exports are left alone, no key is noted. -/
theorem Leads.exported_eq (he : e.config.exports = false) (h : Leads e p q) :
    q.state.exported = p.state.exported := by
  induction h with
  | refl => rfl
  | tail _ hstep ih =>
    obtain @⟨done, done', stmt, rest, s, s', h⟩ := hstep
    obtain ⟨ns, hns, -⟩ := step_of_not_exports he h
    exact ((Visit.ofNode_visits e stmt).spliced hns).1.exported_eq.1.trans ih

end Pass.Stage

namespace Outcome.Ran

variable {o : Outcome} {program : Node} {body : List Node}

/-- Without imports and display names, nothing is renamed. -/
theorem renames_eq_nil (h : o.Ran program body) (himports : o.surroundings.config.imports = false)
    (hdisplay : o.surroundings.config.displayNames = false) : o.state.renames.entries = [] := by
  rw [Pass.Stage.Leads.renames_eq himports h.leads, Pass.start, hdisplay]
  rfl

/-- Once a key is noted, no leftover of exports remains. -/
theorem not_isExportLeftover (h : o.Ran program body) (hexported : o.state.exported ≠ []) :
    ∀ n ∈ Pass.splice o.added o.kept, n.isExportLeftover o.state.exported = false := by
  have hon : o.surroundings.config.exports = true := by
    rcases hoff : o.surroundings.config.exports with _ | _
    · have hnone := Pass.Stage.Leads.exported_eq hoff h.leads
      exact absurd (hnone.trans (Pass.exported_start _ _ _).1) hexported
    · rfl
  intro n hn
  rcases Pass.mem_splice.1 hn with hn | hn
  · obtain ⟨i, -, rfl⟩ := mem_map.1 hn
    rfl
  · have hrenamed := (Pass.mem_dropHelpers h.drops).1 hn
    have hfilter : (o.surroundings.config.exports && !o.state.exported.isEmpty) = true := by
      rw [hon, isEmpty_eq_false_iff.2 hexported]
      rfl
    rw [Pass.renamed, if_pos hfilter] at hrenamed
    simpa using of_mem_filter hrenamed

end Outcome.Ran

/-- The accounts of a pass over a program without exports, if it renames
    nothing: it counts the exports that stand at the top level in the end, and
    it notes the names that they export. If there are any, no statement marks
    the program as a module, or announces some of them. -/
theorem exports_accounted {config : Config} {program : Node} {o : Outcome}
    (h : reconstruct config program = .ok o) (himports : config.imports = false)
    (hdisplay : config.displayNames = false)
    (hprogram : ∀ n ∈ program.descendants, n.isExport = false) :
    ∃ statements, o.program.statements = .ok statements ∧
      (statements.filter isExport).length = o.state.tally.exports ∧
      (∀ name, (∃ n ∈ statements, name ∈ n.exportedNames) ↔ name ∈ o.state.exported) ∧
      (o.state.exported ≠ [] →
        ∀ n ∈ statements, ¬n.MarksModule ∧ ¬n.AnnouncesOnly o.state.exported) := by
  obtain ⟨body, hran⟩ := reconstruct_ran h
  obtain ⟨⟨keys, htells⟩, hsettled, hexports⟩ := hran.tells (unexported_iff.2 hprogram)
  have hconfig := reconstruct_config h
  have hrenames : o.state.renames.entries = [] :=
    hran.renames_eq_nil (by rw [hconfig]; exact himports) (by rw [hconfig]; exact hdisplay)
  have hkeys : (Pass.splice o.added o.kept).flatMap Node.exports = keys :=
    hexports.symm.trans (htells.exports_eq fun entry _ _ =>
      Renaming.apply_of_entries_eq_nil hrenames _)
  refine ⟨Pass.splice o.added o.kept, hran.program_eq ▸ statements_withStatements hran.statements,
    ?_, fun name => ?_, fun hsome n hn => ?_⟩
  · rw [length_filter_isExport hsettled, hkeys, htells.counted]
  · rw [htells.noted, ← hkeys, mem_flatMap]
    exact exists_congr fun n => and_congr_right fun hn => by rw [(hsettled n hn).exports.1]
  · obtain ⟨hmarker, hplaceholder⟩ := Bool.or_eq_false_iff.1 (hran.not_isExportLeftover hsome n hn)
    rw [← isModuleMarker_iff, ← isPlaceholder_iff, hmarker, hplaceholder]
    exact ⟨Bool.false_ne_true, Bool.false_ne_true⟩

/-- `Object.defineProperty(exports, "__esModule", null); exports.a =
    exports.default = void null; var a = null; function b() {} exports.a = a;
    exports.default = b;` -/
def exportedModule : Node :=
  .program [
    .exprStmt (.call (.member (.identifier "Object") (.identifier "defineProperty") false false)
      [.identifier "exports", .literal (.string "__esModule") none, .literal .null none] false),
    .exprStmt (.assignment "=" (.member (.identifier "exports") (.identifier "a") false false)
      (.assignment "=" (.member (.identifier "exports") (.identifier "default") false false)
        (.unary "void" (.literal .null none)))),
    declaring "a" (.literal .null none), namedFunction "b" [], exportingAs "a" "a",
      exportingAs "default" "b"]

/-- Two exports, with a marker and an announcement before them. -/
theorem exports_accounted_exportedModule :
    ∃ o, reconstruct { imports := false, displayNames := false } exportedModule = .ok o ∧
      (∀ n ∈ exportedModule.descendants, n.isExport = false) ∧ o.state.tally.exports = 2 ∧
      o.state.exported = [ofString "a", ofString "default"] ∧
      ∃ statements, o.program.statements = .ok statements ∧
        (statements.filter isExport).length = 2 ∧
        (∀ name, (∃ n ∈ statements, name ∈ n.exportedNames) ↔ name ∈ o.state.exported) ∧
        ∀ n ∈ statements, ¬n.MarksModule ∧ ¬n.AnnouncesOnly o.state.exported := by
  have hprogram : ∀ n ∈ exportedModule.descendants, n.isExport = false := by decide +kernel
  obtain ⟨o, ho, hcount, hexported⟩ : ∃ o,
      reconstruct { imports := false, displayNames := false } exportedModule = .ok o ∧
      o.state.tally.exports = 2 ∧ o.state.exported = [ofString "a", ofString "default"] :=
    exists_outcome (by decide +kernel)
  obtain ⟨statements, hstatements, hlength, hnames, hleft⟩ := exports_accounted ho rfl rfl hprogram
  have hsome : o.state.exported ≠ [] := hexported ▸ cons_ne_nil _ _
  exact ⟨o, ho, hprogram, hcount, hexported, statements, hstatements,
    hlength.trans hcount, hnames, hleft hsome⟩

end Resugar
