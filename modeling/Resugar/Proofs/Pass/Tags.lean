import Resugar.Proofs.Pass.Run

/-!
# The names of elements

The tag of a markup call becomes the name of an element, and a name is never
looked at again: the renaming at the end of a pass changes identifiers only. So
an element has the new name of a variable if the variable is renamed before the
call is visited, and the old one otherwise.

Elements are conserved: what comes after the visit of a statement moves its
elements about, but only with a whole statement do they go (`Outcome.drops`).
-/

namespace Resugar

open Node List
open Text (ofString)

/-! ## Elements of trees -/

namespace Node

variable {n : Node}

theorem tags_identifier (x : Text) : (identifier x).tags = [] := rfl

theorem tags_parenthesized (e : Node) : (parenthesized e).tags = e.tags := by
  rw [tags_eq]
  simp [elementName?, parts, fields, Field.single, Slot.nodes]

theorem tags_exprStmt (e : Node) : (exprStmt e).tags = e.tags := by
  rw [tags_eq]
  simp [elementName?, parts, fields, Field.single, Slot.nodes]

theorem tags_assignment (operator : Text) (left right : Node) :
    (assignment operator left right).tags = left.tags ++ right.tags := by
  rw [tags_eq]
  simp [elementName?, parts, fields, Field.single, Slot.nodes]

theorem tags_member (receiver property : Node) (computed o : Bool) :
    (member receiver property computed o).tags = receiver.tags ++ property.tags := by
  rw [tags_eq]
  simp [elementName?, parts, fields, Field.single, Slot.nodes]

theorem tags_varDecl (kind : VariableKind) (ds : List Node) :
    (varDecl kind ds).tags = ds.flatMap tags := by
  have hnodes : (Slot.list (ds.map some)).nodes = ds := by simp [Slot.nodes]
  rw [tags_eq]
  simp [elementName?, parts, fields, Field.list, hnodes]

theorem tags_declarator (id init : Node) :
    (declarator id (some init)).tags = id.tags ++ init.tags := by
  rw [tags_eq]
  simp [elementName?, parts, fields, Field.single, Slot.nodes]

theorem tags_exportValue (key : Text) (init : Node) : (exportValue key init).tags = init.tags := by
  unfold exportValue
  split
  · rw [tags_eq]
    simp [elementName?, parts, fields, Field.single, Slot.nodes]
  · rw [tags_eq]
    simp [elementName?, parts, fields, Field.single, Field.list, Slot.nodes, tags_varDecl,
      tags_declarator, tags_identifier]

theorem tags_exportBinding (key binding : Text) : (exportBinding key binding).tags = [] := by
  unfold exportBinding
  split
  · rfl
  · dsimp only
    split <;> rfl

theorem tags_ungroup (n : Node) : n.ungroup.tags = n.tags := by
  fun_induction ungroup n with
  | case1 e ih => rw [ih, tags_parenthesized]
  | case2 n => rfl

/-- A property that is named has no elements. -/
theorem tags_of_propertyName? {computed : Bool} {name : Text}
    (h : n.propertyName? computed = some name) : n.tags = [] := by
  unfold propertyName? at h
  split at h
  · rfl
  · rfl
  · cases h

/-- An export assignment has no elements. -/
theorem tags_of_exportAssignment? {key binding : Text}
    (h : n.exportAssignment? = some (key, binding)) : n.tags = [] := by
  unfold exportAssignment? at h
  split at h
  · rename_i e
    split at h
    · rename_i operator left binding' hassignment
      split at h
      · obtain ⟨key', hkey, -⟩ := Option.map_eq_some_iff.1 h
        rw [tags_exprStmt, ← tags_ungroup, hassignment, tags_assignment, tags_identifier,
          append_nil, ← tags_ungroup]
        unfold exportKey? at hkey
        split at hkey
        · rename_i receiver property computed o hmember
          rw [hmember, tags_member]
          split at hkey
          · rename_i hexports
            rw [isNamed_iff.1 hexports, tags_identifier, tags_of_propertyName? hkey]
            rfl
          · split at hkey
            · rename_i hmodule
              obtain ⟨hreceiver, hproperty⟩ := Bool.and_eq_true_iff.1 hmodule
              rw [isNamed_iff.1 hreceiver, tags_identifier,
                tags_of_propertyName? (beq_iff_eq.1 hproperty)]
              rfl
            · cases hkey
        · cases hkey
      · cases h
    · cases h
  · cases h

/-- A change of the walked nodes below the root that keeps their elements. -/
theorem tags_withSlots_map {g : Node → Node} (hg : ∀ c ∈ n.parts, (g c).tags = c.tags) :
    (n.withSlots (n.fields.map fun f => if f.walked then f.slot.map g else f.slot)).tags =
      n.tags := by
  rw [tags_eq, tags_eq n, parts, fields_withSlots_map, withSlots, elementName?_setSlots, parts,
    flatMap_map]
  simp only [flatMap_assoc]
  refine congrArg _ (flatMap_congr fun f hf => ?_)
  split
  · rw [Slot.nodes_map, flatMap_map]
    exact flatMap_congr fun c hc => hg c (mem_parts hf hc)
  · rfl

/-- The statements that stay to the end of a pass, whatever is in them. -/
def isLasting : Node → Bool
  | varDecl .. => true
  | exportDefault .. => true
  | exportNamed .. => true
  | _ => false

theorem isLasting_exportValue (key : Text) (init : Node) :
    (exportValue key init).isLasting = true := by
  unfold exportValue
  split <;> rfl

end Node

namespace Renaming

variable (r : Renaming)

/-- One step of renaming keeps the elements: `a.default` has none. -/
theorem tags_rename? (n : Node) : ((r.rename? n).getD n).tags = n.tags := by
  unfold rename?
  split
  · rfl
  · rcases hcollapse : r.collapse? _ with _ | m
    · rfl
    · have hdefault : n.isMemberNamed "default" = true := by
        unfold collapse? at hcollapse
        split at hcollapse
        · assumption
        · cases hcollapse
      obtain ⟨x, property, computed, o, rfl, rfl, -⟩ := r.collapse?_eq_some hcollapse
      rw [Option.getD_some, tags_member, tags_identifier,
        tags_of_propertyName? (beq_iff_eq.1 hdefault)]
      rfl

/-- A renaming leaves the elements their names. -/
theorem tags_replaceAll (n : Node) (nested : Bool) :
    (n.replaceAll (fun _ => r.rename?) nested).tags = n.tags := by
  induction n using induct generalizing nested with
  | h n ih =>
    rw [replaceAll_eq, tags_rename?]
    exact tags_withSlots_map fun c hc => ih c hc _

theorem tags_inStatement (n : Node) : (r.inStatement n).tags = n.tags := by
  unfold inStatement
  split
  · rfl
  · exact r.tags_replaceAll n false

theorem tags_sweep (n : Node) : (r.sweep n).tags = n.tags := by
  unfold sweep
  split
  · rfl
  · split
    · rfl
    · exact tags_withSlots_map fun c _ => r.tags_replaceAll c _

end Renaming

/-! ## Elements in a run -/

namespace Pass

variable {e : Surroundings} {s s' : PassState} {tag : Text} {P : Node → Prop}

theorem tags_movedValue (r : Renaming) (init : Node) : (movedValue r init).tags = init.tags := by
  rw [movedValue, r.tags_rename?, r.tags_sweep]

/-- An export neither brings nor takes elements: those of a value go from a
    declaration to the export. -/
theorem Exported.exists_tag_iff {done rest done' : List Node} {stmt declaration : Node}
    {key binding : Text} (h : Exported s done stmt rest key binding done' declaration s')
    (hP : ∀ n, n.isLasting = true → P n) :
    (∃ n ∈ done' ++ [declaration], tag ∈ n.tags ∧ P n) ↔ ∃ n ∈ done, tag ∈ n.tags ∧ P n := by
  cases h with
  | bound exported =>
    simp only [mem_append, mem_singleton, or_and_right, exists_or, exists_eq_left,
      tags_exportBinding, not_mem_nil, false_and, or_false]
  | @moved remains init hmoves exported =>
    obtain ⟨ss, kind, before, after, ts, rfl, rfl⟩ := hmoves.remains_eq
    have hdefinition : tag ∈ (varDecl kind
        (before ++ .declarator (.identifier binding) (some init) :: after)).tags ↔
          tag ∈ (varDecl kind (before ++ after)).tags ∨ tag ∈ init.tags := by
      simp only [tags_varDecl, tags_declarator, tags_identifier,
        flatMap_append, flatMap_cons, mem_append, not_mem_nil, false_or]
      tauto
    -- what is left of the declaration has the elements of the other
    -- declarators, if any
    have hremains : (∃ n ∈ Visit.declaration kind (before ++ after), tag ∈ n.tags ∧ P n) ↔
        tag ∈ (varDecl kind (before ++ after)).tags := by
      unfold Visit.declaration
      split
      · rename_i hnone
        rw [List.isEmpty_iff.1 hnone]
        exact ⟨nofun, nofun⟩
      · simp [hP (.varDecl kind (before ++ after)) rfl]
    have hvalue : P (exportValue key (movedValue s.renames init)) :=
      hP _ (isLasting_exportValue _ _)
    have hdeclaration : P (varDecl kind
        (before ++ .declarator (.identifier binding) (some init) :: after)) := hP _ rfl
    simp only [mem_append, mem_cons, not_mem_nil, or_false, or_and_right, exists_or,
      exists_eq_left, hremains, hdefinition, tags_exportValue, tags_movedValue, hvalue,
      hdeclaration, and_true, or_assoc, or_comm (b := tag ∈ init.tags),
      or_left_comm (b := tag ∈ init.tags)]

/-- The visit of a statement in a run. -/
structure Visited where
  stmt : Node
  /-- What the pass has gathered before it. -/
  before : PassState
  left : List Node

/-- The visits of statements that come after others, in order. -/
def visits (e : Surroundings) : (done rest : List Node) → PassState → List Visited
  | _, [], _ => []
  | done, stmt :: rest, s =>
    let v := Visit.ofNode e stmt
    match v.spliced false ((Refs.ofNodes done).plus (Refs.ofNodes rest)) s,
      step e done v rest s with
    | .ok (left, _), .ok (done', s') => ⟨stmt, s, left⟩ :: visits e done' rest s'
    | _, _ => []

/-- The visits of a run are that of the next statement, and those after it. -/
theorem visits_cons {done done' rest left : List Node} {stmt : Node} {s₁ : PassState}
    (hleft : (Visit.ofNode e stmt).spliced false ((Refs.ofNodes done).plus (Refs.ofNodes rest)) s =
      .ok (left, s₁))
    (hstep : step e done (Visit.ofNode e stmt) rest s = .ok (done', s')) :
    visits e done (stmt :: rest) s = ⟨stmt, s, left⟩ :: visits e done' rest s' := by
  rw [visits, hleft, hstep]

namespace Stage

variable {p q : Stage}

/-- The elements of the visited statements, once the next one is visited. -/
theorem Advances.exists_tag_iff (tag : Text) (h : Advances e p q)
    (hP : ∀ n, n.isLasting = true → P n) :
    ∃ v, visits e p.done p.rest p.state = v :: visits e q.done q.rest q.state ∧
      ((∃ n ∈ q.done, tag ∈ n.tags ∧ P n) ↔
        (∃ n ∈ p.done, tag ∈ n.tags ∧ P n) ∨ ∃ n ∈ v.left, tag ∈ n.tags ∧ P n) := by
  obtain @⟨done, done', stmt, rest, s, s', h⟩ := h
  obtain ⟨left, s₁, hleft, hcases⟩ := step_cases h
  refine ⟨⟨stmt, s, left⟩, visits_cons hleft h, ?_⟩
  obtain ⟨rfl, -⟩ | ⟨visited, key, binding, remains, declaration, rfl, hexport, rfl, hexported⟩ :=
    hcases
  · simp only [mem_append, or_and_right, exists_or]
  · -- the export assignment that goes has no elements
    rw [hexported.exists_tag_iff hP]
    simp [tags_of_exportAssignment? hexport]

/-- The elements of the visited statements are those that the visits left. -/
theorem Leads.exists_tag_iff (h : Leads e p q) (hq : q.rest = [])
    (hP : ∀ n, n.isLasting = true → P n) :
    (∃ n ∈ q.done, tag ∈ n.tags ∧ P n) ↔ (∃ n ∈ p.done, tag ∈ n.tags ∧ P n) ∨
      ∃ v ∈ visits e p.done p.rest p.state, ∃ n ∈ v.left, tag ∈ n.tags ∧ P n := by
  induction h using Relation.ReflTransGen.head_induction_on with
  | refl =>
    rw [hq]
    simp [visits]
  | head hstep _ ih =>
    obtain ⟨v, hvisits, hiff⟩ := hstep.exists_tag_iff tag hP
    rw [ih, hiff, hvisits]
    simp only [exists_mem_cons_iff, or_assoc]

/-- A visit of a run is made at one of its stages. -/
theorem Leads.exists_stage (h : Leads e p q) (hq : q.rest = []) {v : Visited}
    (hv : v ∈ visits e p.done p.rest p.state) :
    ∃ done rest s₁, Leads e p ⟨done, v.stmt :: rest, v.before⟩ ∧
      (Visit.ofNode e v.stmt).spliced false ((Refs.ofNodes done).plus (Refs.ofNodes rest))
      v.before = .ok (v.left, s₁) ∧ s₁.Grows q.state := by
  induction h using Relation.ReflTransGen.head_induction_on with
  | refl =>
    rw [hq] at hv
    cases hv
  | head hstep hlead ih =>
    obtain @⟨done, done', stmt, rest, s, s', h⟩ := hstep
    obtain ⟨left, s₁, hleft, hcases⟩ := step_cases h
    rw [visits_cons hleft h] at hv
    rcases mem_cons.1 hv with rfl | hv
    · refine ⟨done, rest, s₁, .refl, hleft, PassState.Grows.trans ?_ (Leads.grows hlead)⟩
      obtain ⟨-, rfl⟩ | ⟨_, _, _, _, _, -, -, -, hexported⟩ := hcases
      · exact .refl _
      · exact hexported.grows
    · obtain ⟨done₁, rest₁, s₂, hto, hrest⟩ := ih hv
      exact ⟨done₁, rest₁, s₂, .head (.visit h) hto, hrest⟩

end Stage

end Pass

/-! ## Elements of the program -/

namespace Pass

variable {e : Surroundings} {s : PassState} {n : Node}

/-- Whether a statement means nothing once the exports are declarations. -/
def isLeftover (e : Surroundings) (s : PassState) (n : Node) : Bool :=
  e.config.exports && !s.exported.isEmpty && n.isExportLeftover s.exported

/-- Renaming keeps all statements but the leftovers of exports. -/
theorem mem_renamed {body : List Node} :
    n ∈ renamed e s body ↔
      ∃ m ∈ body, isLeftover e s (s.renames.inStatement m) = false ∧
        s.renames.inStatement m = n := by
  unfold renamed isLeftover
  rw [Renaming.sweep_program]
  dsimp only
  split
  · rename_i hexports
    rw [hexports, mem_filter, mem_map]
    constructor
    · rintro ⟨⟨m, hm, rfl⟩, hleftover⟩
      exact ⟨m, hm, by simpa using hleftover, rfl⟩
    · rintro ⟨m, hm, hleftover, rfl⟩
      exact ⟨⟨m, hm, rfl⟩, by simpa using hleftover⟩
  · rename_i hexports
    rw [Bool.eq_false_iff.2 hexports, mem_map]
    simp

end Pass

namespace Outcome

/-- The visits of a pass over a program. -/
def visits (o : Outcome) (program : Node) : List Pass.Visited :=
  let body := program.statements.toOption.getD []
  Pass.visits o.surroundings [] body (Pass.start o.surroundings program body)

/-- Whether a statement goes at the end of a pass, as a leftover of exports or
    as an unused helper. -/
def drops (o : Outcome) (n : Node) : Bool :=
  let n := o.state.renames.inStatement n
  let helpers := Pass.unusedHelpers (Pass.idleHelpers o.surroundings o.state.tally)
    (Pass.renamed o.surroundings o.state o.walked)
  Pass.isLeftover o.surroundings o.state n || (n.definesOneOf helpers).toOption == some true

theorem drops_of_isLasting (o : Outcome) {n : Node} (h : n.isLasting = true) :
    o.drops n = false := by
  have hrenamed : (o.state.renames.inStatement n).isLasting = true := by
    unfold Renaming.inStatement
    split
    · exact h
    · cases n <;> first | rfl | cases h
  unfold drops
  generalize o.state.renames.inStatement n = n' at hrenamed
  cases n' <;> first | exact Bool.or_eq_false_iff.2 ⟨Bool.and_false _, rfl⟩ | cases hrenamed

/-- Why a visit may leave an element with a given name. -/
inductive MayKeep (o : Outcome) (program : Node) (v : Pass.Visited) (x tag : Text) : Prop
  | source (h : tag ∈ v.stmt.tags)
  /-- The tag of a markup call spells the name, but not with an identifier. -/
  | spelled {call n : Node} (hcall : call ∈ o.state.rebuilt) (hn : n ∈ call.walk)
    (htag : n.tagName? = .ok (some tag)) (hx : x ∉ n.names)
  /-- The name is one that the pass writes or reserves. -/
  | made (h : o.Gives x ∨ x ∈ o.state.names.used ∧ x ∉ program.names)
  /-- The statement has the variable, which has no new name yet. -/
  | early (hx : x ∈ v.stmt.names) (hnew : v.before.renames.has x = false)

namespace Ran

variable {o : Outcome} {program : Node} {body : List Node} {x tag : Text}

/-- The visits of a pass start from its statements and its first state. -/
theorem visits_eq (h : o.Ran program body) :
    o.visits program = Pass.visits o.surroundings [] body
      (Pass.start o.surroundings program body) := by
  unfold visits
  rw [h.statements]
  rfl

/-- The kept statements are the visited ones, renamed, that do not go. -/
theorem mem_kept_iff (h : o.Ran program body) {n : Node} :
    n ∈ o.kept ↔ ∃ m ∈ o.walked, o.drops m = false ∧ o.state.renames.inStatement m = n := by
  obtain ⟨p, hkept, hp⟩ := Pass.dropHelpers_eq_filter h.drops
  -- of the statements that are no leftovers, the definitions of unused helpers go
  have hdrops {m : Node} (hm : o.state.renames.inStatement m ∈
      Pass.renamed o.surroundings o.state o.walked)
      (hleftover : Pass.isLeftover o.surroundings o.state (o.state.renames.inStatement m) = false) :
      o.drops m = false ↔ p (o.state.renames.inStatement m) = true := by
    rw [← Bool.not_eq_false, hp _ hm, Outcome.drops, hleftover, Bool.false_or,
      beq_eq_false_iff_ne, ne_eq]
    refine not_congr ?_
    cases (o.state.renames.inStatement m).definesOneOf _ <;> simp [Except.toOption]
  rw [hkept, mem_filter]
  constructor
  · rintro ⟨hn, hpn⟩
    obtain ⟨m, hm, hleftover, rfl⟩ := Pass.mem_renamed.1 hn
    exact ⟨m, hm, (hdrops hn hleftover).2 hpn, rfl⟩
  · rintro ⟨m, hm, hstays, rfl⟩
    have hleftover : Pass.isLeftover o.surroundings o.state
        (o.state.renames.inStatement m) = false :=
      (Bool.or_eq_false_iff.1 hstays).1
    have hn := Pass.mem_renamed.2 ⟨m, hm, hleftover, rfl⟩
    exact ⟨hn, (hdrops hn hleftover).1 hstays⟩

/-- The elements of the program are those that visits left in what stays. -/
theorem mem_tags_iff (h : o.Ran program body) :
    tag ∈ o.program.tags ↔
      ∃ v ∈ o.visits program, ∃ n ∈ v.left, tag ∈ n.tags ∧ o.drops n = false := by
  have hwalked : tag ∈ o.program.tags ↔ ∃ n ∈ o.walked, tag ∈ n.tags ∧ o.drops n = false := by
    rw [h.mem_tags]
    constructor
    · rintro ⟨n, hn, htag⟩
      obtain ⟨m, hm, hdrops, rfl⟩ := h.mem_kept_iff.1 hn
      exact ⟨m, hm, o.state.renames.tags_inStatement m ▸ htag, hdrops⟩
    · rintro ⟨m, hm, htag, hdrops⟩
      exact ⟨_, h.mem_kept_iff.2 ⟨m, hm, hdrops, rfl⟩,
        (o.state.renames.tags_inStatement m).symm ▸ htag⟩
  rw [hwalked, Pass.Stage.Leads.exists_tag_iff h.leads rfl fun n => o.drops_of_isLasting,
    h.visits_eq]
  simp

/-- No visit leaves an element with the name of a variable without a reason. -/
theorem mayKeep (h : o.Ran program body) {v : Pass.Visited} (hv : v ∈ o.visits program) {n : Node}
    (hn : n ∈ v.left) (htag : tag ∈ n.tags) (hx : tag.firstSegment = x) :
    o.MayKeep program v x tag := by
  by_cases hmade : o.Gives x ∨ x ∈ o.state.names.used ∧ x ∉ program.names
  · exact .made hmade
  obtain ⟨hgives, hreserved⟩ := not_or.1 hmade
  obtain ⟨hundefined, hgiven⟩ := not_or.1 hgives
  by_cases hearly : x ∈ v.stmt.names ∧ v.before.renames.has x = false
  · exact .early hearly.1 hearly.2
  rw [h.visits_eq] at hv
  obtain ⟨done, rest, s₁, hlead, hvisit, hgrows⟩ := Pass.Stage.Leads.exists_stage h.leads rfl hv
  -- the visit has no identifier with the name, so it can only be spelled by
  -- other means
  let V : Vocabulary := ⟨(· ≠ x), fun t => t.firstSegment = x → o.MayKeep program v x t⟩
  have hsound := Pass.Stage.Leads.sound hlead (Pass.start_sound _ _ _)
  have hV : V.Admits v.before s₁ :=
    { replaced := fun entry hentry heq => hgiven ⟨entry, hgrows.renames.subset hentry, heq⟩
      reserved := fun y hy hunused _ heq =>
        hreserved ⟨heq ▸ hgrows.names hy, fun hmem => hunused (hsound.reserved (heq ▸ hmem))⟩
      undefined := Ne.symm hundefined
      spelled := fun call hcall hspeaks t ht text htext _ =>
        .spelled (hgrows.rebuilt.subset hcall) ht htext fun hmem =>
          (hspeaks.of_mem_walk ht).1 rfl x hmem rfl }
  have hstmt : v.stmt.Speaks (V.before v.before.renames) true := by
    refine ⟨fun _ y hy => ?_, fun t ht _ => .source ht⟩
    by_cases hyx : y = x
    · refine .inr ?_
      rw [hyx]
      exact Bool.of_not_eq_false fun hnew => hearly ⟨hyx ▸ hy, hnew⟩
    · exact .inl hyx
  exact (((Visit.ofNode_visits _ v.stmt).spliced hvisit).2 V hV hstmt n hn).2 tag htag hx

/-- An element is in the program exactly if a visit leaves it for one of the
    reasons, in a statement that stays. -/
theorem mem_tags_iff_mayKeep (h : o.Ran program body) (hx : tag.firstSegment = x) :
    tag ∈ o.program.tags ↔ ∃ v ∈ o.visits program, ∃ n ∈ v.left,
      tag ∈ n.tags ∧ o.drops n = false ∧ o.MayKeep program v x tag := by
  rw [h.mem_tags_iff]
  constructor
  · rintro ⟨v, hv, n, hn, htag, hdrops⟩
    exact ⟨v, hv, n, hn, htag, hdrops, h.mayKeep hv hn htag hx⟩
  · rintro ⟨v, hv, n, hn, htag, hdrops, -⟩
    exact ⟨v, hv, n, hn, htag, hdrops⟩

/-- No element has a name exactly if no visit leaves one that has it for one of
    the reasons, in a statement that stays. -/
theorem tag_absent_iff (h : o.Ran program body) (x : Text) :
    (∀ tag ∈ o.program.tags, tag.firstSegment ≠ x) ↔
      ∀ v ∈ o.visits program, ∀ n ∈ v.left, o.drops n = false →
        ∀ tag ∈ n.tags, o.MayKeep program v x tag → tag.firstSegment ≠ x := by
  constructor
  · intro habsent v hv n hn hdrops tag htag _
    exact habsent tag (h.mem_tags_iff.2 ⟨v, hv, n, hn, htag, hdrops⟩)
  · intro hnone tag htag hx
    obtain ⟨v, hv, n, hn, htag, hdrops, hkeep⟩ := (h.mem_tags_iff_mayKeep hx).1 htag
    exact hnone v hv n hn hdrops tag htag hkeep hx

end Ran

end Outcome

/-- An element whose name begins with the old name of a renamed variable is in
    the program if and only if a visit leaves it, in a statement that stays, for
    one of the reasons. So no element has the old name if and only if no visit
    leaves one. -/
theorem renamed_tag_absent_iff {config : Config} {program : Node} {o : Outcome}
    (h : reconstruct config program = .ok o) :
    ∀ entry ∈ o.state.renames.entries,
      (∀ tag, tag.firstSegment = entry.1 → (tag ∈ o.program.tags ↔
        ∃ v ∈ o.visits program, ∃ n ∈ v.left,
          tag ∈ n.tags ∧ o.drops n = false ∧ o.MayKeep program v entry.1 tag)) ∧
        ((∀ tag ∈ o.program.tags, tag.firstSegment ≠ entry.1) ↔
          ∀ v ∈ o.visits program, ∀ n ∈ v.left, o.drops n = false →
            ∀ tag ∈ n.tags, o.MayKeep program v entry.1 tag → tag.firstSegment ≠ entry.1) := by
  obtain ⟨body, hran⟩ := reconstruct_ran h
  intro entry _
  exact ⟨fun tag hx => hran.mem_tags_iff_mayKeep hx, hran.tag_absent_iff entry.1⟩

/-- `function App() { return React.createElement(_Box, null); }` -/
def boxMade : Node :=
  namedFunction "App" [.returnStmt (some (.call
    (.member (.identifier "React") (.identifier "createElement") false false)
    [.identifier "_Box", .literal .null none] false))]

/-- The element gets the new name of a variable that is loaded before, and it is
    left early if the variable is loaded after it. -/
theorem renamed_tag_absent_iff_boxMade :
    (∃ o, reconstruct {} (.program [loading "_Box" "box", boxMade]) = .ok o ∧
      (ofString "_Box", ofString "Box") ∈ o.state.renames.entries ∧ o.program.tags ≠ [] ∧
      ∀ tag ∈ o.program.tags, tag.firstSegment ≠ "_Box") ∧
    ∃ o, reconstruct {} (.program [boxMade, loading "_Box" "box"]) = .ok o ∧
      ∃ v ∈ o.visits (.program [boxMade, loading "_Box" "box"]), ∃ n ∈ v.left, o.drops n = false ∧
        o.MayKeep (.program [boxMade, loading "_Box" "box"]) v "_Box" "_Box" := by
  constructor
  · let program : Node := .program [loading "_Box" "box", boxMade]
    let P (o : Outcome) : Prop :=
      (ofString "_Box", ofString "Box") ∈ o.state.renames.entries ∧
        o.program.tags ≠ [] ∧ ∀ v ∈ o.visits program, ∀ n ∈ v.left, o.drops n = false →
          ∀ tag ∈ n.tags, tag.firstSegment ≠ ofString "_Box"
    obtain ⟨o, ho, hentry, htags, hleft⟩ : ∃ o, reconstruct {} program = .ok o ∧ P o :=
      exists_outcome (by decide +kernel)
    refine ⟨o, ho, hentry, htags, (renamed_tag_absent_iff ho _ hentry).2.2 ?_⟩
    exact fun v hv n hn hdrops tag htag _ => hleft v hv n hn hdrops tag htag
  · let program : Node := .program [boxMade, loading "_Box" "box"]
    let P (o : Outcome) : Prop :=
      (ofString "_Box", ofString "Box") ∈ o.state.renames.entries ∧
        ofString "_Box" ∈ o.program.tags
    obtain ⟨o, ho, hentry, htag⟩ : ∃ o, reconstruct {} program = .ok o ∧ P o :=
      exists_outcome (by decide +kernel)
    obtain ⟨v, hv, n, hn, -, hdrops, hkeep⟩ :=
      ((renamed_tag_absent_iff ho _ hentry).1 "_Box" (by decide)).1 htag
    exact ⟨o, ho, v, hv, n, hn, hdrops, hkeep⟩

/-- The element keeps the old name of a variable that is loaded after it. -/
theorem renamed_tag_present :
    ∃ o, reconstruct {} (.program [boxMade, loading "_Box" "box"]) = .ok o ∧
      (ofString "_Box", ofString "Box") ∈ o.state.renames.entries ∧
      ∃ tag ∈ o.program.tags, tag.firstSegment = "_Box" :=
  exists_outcome (by decide +kernel)

end Resugar
