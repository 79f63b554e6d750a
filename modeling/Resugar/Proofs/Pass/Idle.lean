import Resugar.Proofs.Pass.Run

/-!
# Idle passes

A pass that rebuilds nothing changes nothing. Whatever a visit rebuilds, it
counts, and it never counts down. So if the total is the same at the end, then
all visits in between left their nodes as they were (`Visit.idle`). The other
clean-ups of a pass, which are not counted, have to be off.
-/

namespace Resugar

namespace Node

theorem withSlots_slots (n : Node) : n.withSlots (n.fields.map Field.slot) = n := by
  have hlist (ns : List Node) : (Slot.list (ns.map some)).nodes = ns := by simp [Slot.nodes]
  have hchild (c old : Node) : (Slot.single (some c)).child old = c := rfl
  have hoptional (c : Option Node) : (Slot.single c).child? = c := by cases c <;> rfl
  cases n <;> simp [withSlots, setSlots, Field.single, Field.list, Slot.items,
    hlist, hchild, hoptional]

end Node

/-! ## Without new names -/

namespace Renaming

variable {r : Renaming} (hr : r.entries = [])
include hr

theorem apply_of_entries_eq_nil (x : Text) : r.apply x = x := by
  rw [apply, get?, hr]
  rfl

theorem collapse?_of_entries_eq_nil (n : Node) : r.collapse? n = none := by
  rw [collapse?]
  split
  · refine Option.filter_eq_none_iff.2 fun receiver _ hname => ?_
    obtain ⟨name, -, hbinding⟩ := (Option.any_eq_true ..).1 hname
    rw [isBinding, hr] at hbinding
    cases hbinding
  · rfl

theorem sweep_of_entries_eq_nil (n : Node) : r.sweep n = n := by
  unfold sweep
  exact if_pos (List.isEmpty_iff.2 hr)

end Renaming

/-! ## Visits -/

/-- A state has the same imports, exports and new names as another one. -/
structure PassState.Same (s s' : PassState) : Prop where
  renames : s'.renames = s.renames
  imported : s'.imported = s.imported
  exported : s'.exported = s.exported

theorem PassState.Same.refl (s : PassState) : s.Same s :=
  ⟨rfl, rfl, rfl⟩

theorem PassState.Same.trans {s s₁ s' : PassState} (h : s.Same s₁) (h' : s₁.Same s') : s.Same s' :=
  ⟨h'.renames.trans h.renames, h'.imported.trans h.imported, h'.exported.trans h.exported⟩

namespace Surroundings

variable {e : Surroundings} {s s' : PassState} {inList alone : Bool} {d : Node}

/-- Without new names and the clean-ups, a node stays as it is. -/
theorem tidied_of_entries_eq_nil {r : Renaming} (hr : r.entries = [])
    (hbooleans : e.config.booleans = false)
    (hindirect : e.config.indirectCalls = false) (n : Node) : e.tidied r n = n := by
  unfold tidied
  split
  · rw [Renaming.apply_of_entries_eq_nil hr]
  · rw [Renaming.collapse?_of_entries_eq_nil hr]
    rfl
  · rw [hindirect]
    rfl
  · rw [hbooleans]
    rfl
  · rfl

/-- Naming a class reserves at most its name. -/
theorem nameClass_same {f : Factory} {outside : Refs} {name : Text}
    (h : nameClass f outside s = .ok (name, s')) : s'.tally = s.tally ∧ s.Same s' := by
  obtain ⟨-, rfl⟩ | ⟨-, -, -, rfl⟩ := nameClass_cases h
  · exact ⟨rfl, .refl _⟩
  · exact ⟨rfl, rfl, rfl, rfl⟩

/-- If a declarator stays, nothing is counted. -/
theorem ClassAt.same {kind : VariableKind} (h : e.ClassAt kind inList alone d s none s') :
    s'.tally = s.tally ∧ s.Same s' := by
  cases h with
  | off => exact ⟨rfl, .refl _⟩
  | noFactory => exact ⟨rfl, .refl _⟩
  | declined hf hname => exact nameClass_same hname

/-- A class is counted. -/
theorem ClassAt.total {kind : VariableKind} {o : Option (List Node)}
    (h : e.ClassAt kind inList alone d s o s') :
    o = none ∧ s'.tally = s.tally ∧ s.Same s' ∨ s'.tally.total = s.tally.total + 1 := by
  rcases o with _ | ss
  · exact .inl ⟨rfl, h.same⟩
  · obtain _ | _ | _ | ⟨-, -, hname⟩ := h
    refine .inr ?_
    rw [← (nameClass_same hname).1]
    simp only [Tally.total]
    omega

/-- An element is counted. -/
theorem Marks.total {n n' : Node} (h : e.Marks s n n' s') : s'.tally.total = s.tally.total + 1 := by
  cases h
  simp only [Tally.total]
  omega

/-- An import is counted. -/
theorem TakesImport.total (h : e.TakesImport inList alone s d s') :
    s'.tally.total = s.tally.total + 1 := by
  obtain ⟨-, hname⟩ := h
  obtain ⟨rfl, -⟩ | ⟨-, -, rfl⟩ := PassM.importBinding_cases hname <;>
  · simp only [Tally.total]
    omega

end Surroundings

namespace Visit

variable {e : Surroundings} {s s' : PassState}

/-- A visit never counts down, and if it counts nothing while no variable has a
    new name, it leaves its node and the state. -/
def Idle : Law := fun _ n s ns s' =>
  s.tally.total ≤ s'.tally.total ∧
    (s.renames.entries = [] → s'.tally.total = s.tally.total → ns = [n] ∧ s.Same s')

/-- Visits to a list that count nothing leave the list. -/
theorem InList.idle {os os' : List (Option Node)} (h : InList Idle os s os' s') :
    s.tally.total ≤ s'.tally.total ∧
      (s.renames.entries = [] → s'.tally.total = s.tally.total → os' = os ∧ s.Same s') := by
  induction h with
  | nil => exact ⟨Nat.le_refl _, fun _ _ => ⟨rfl, .refl _⟩⟩
  | hole rest ih => exact ⟨ih.1, fun hr ht => ⟨by rw [(ih.2 hr ht).1], (ih.2 hr ht).2⟩⟩
  | node first rest ih =>
    have hfirst := first.1
    have hrest := ih.1
    refine ⟨by omega, fun hr ht => ?_⟩
    obtain ⟨rfl, hsame⟩ := first.2 hr (by omega)
    obtain ⟨rfl, hsame'⟩ := ih.2 (hsame.renames ▸ hr) (by omega)
    exact ⟨rfl, hsame.trans hsame'⟩

/-- Visits to a field that count nothing leave what it holds. -/
theorem InSlot.idle {slot slot' : Slot Node} (h : InSlot Idle slot s slot' s') :
    s.tally.total ≤ s'.tally.total ∧
      (s.renames.entries = [] → s'.tally.total = s.tally.total → slot' = slot ∧ s.Same s') := by
  cases h with
  | none => exact ⟨Nat.le_refl _, fun _ _ => ⟨rfl, .refl _⟩⟩
  | single h =>
    refine ⟨h.1, fun hr ht => ?_⟩
    obtain ⟨heq, hsame⟩ := h.2 hr ht
    cases heq
    exact ⟨rfl, hsame⟩
  | list h =>
    refine ⟨h.idle.1, fun hr ht => ?_⟩
    obtain ⟨rfl, hsame⟩ := h.idle.2 hr ht
    exact ⟨rfl, hsame⟩

/-- Visits to the fields of a node that count nothing leave the fields. -/
theorem InFields.idle {fs : List (Field Node)} {slots : List (Slot Node)}
    (h : InFields Idle fs s slots s') :
    s.tally.total ≤ s'.tally.total ∧
      (s.renames.entries = [] → s'.tally.total = s.tally.total →
        slots = fs.map Field.slot ∧ s.Same s') := by
  induction h with
  | nil => exact ⟨Nat.le_refl _, fun _ _ => ⟨rfl, .refl _⟩⟩
  | walked hf first rest ih =>
    have hfirst := first.idle.1
    have hrest := ih.1
    refine ⟨by omega, fun hr ht => ?_⟩
    obtain ⟨rfl, hsame⟩ := first.idle.2 hr (by omega)
    obtain ⟨rfl, hsame'⟩ := ih.2 (hsame.renames ▸ hr) (by omega)
    exact ⟨rfl, hsame.trans hsame'⟩
  | kept hf rest ih =>
    exact ⟨ih.1, fun hr ht => ⟨by rw [(ih.2 hr ht).1, List.map_cons], (ih.2 hr ht).2⟩⟩

/-- Visits beside a class never count down. -/
theorem Beside.total_le {ns ds : List Node} (h : Beside Idle ns s ds s') :
    s.tally.total ≤ s'.tally.total := by
  induction h with
  | nil => exact Nat.le_refl _
  | cons first rest ih => exact Nat.le_trans first.1 ih

/-- If nothing is counted, all declarators stay in their declaration. -/
theorem InDeclaration.idle {kind : VariableKind} {inList : Bool} {done ds ss : List Node}
    (h : InDeclaration Idle e kind inList done ds s ss s') :
    s.tally.total ≤ s'.tally.total ∧ (s.renames.entries = [] → s'.tally.total = s.tally.total →
      (done.isEmpty && ds.isEmpty) = false → ss = [.varDecl kind (done ++ ds)] ∧ s.Same s') := by
  induction h with
  | nil done s =>
    refine ⟨Nat.le_refl _, fun _ _ hsome => ⟨?_, .refl _⟩⟩
    rw [List.isEmpty_nil, Bool.and_true] at hsome
    rw [declaration, hsome, List.append_nil]
    rfl
  | rebuilt hn first hclass others =>
    have hfirst := first.1
    -- a class counts, and no count goes down again
    have hcount := hclass.total.resolve_left fun h => Option.some_ne_none _ h.1
    have hothers := others.total_le
    exact ⟨by omega, fun _ ht => by omega⟩
  | loaded hn first hclass himport hplace others ih =>
    have hfirst := first.1
    have hcount := himport.total
    have hothers := ih.1
    obtain ⟨-, htally, -⟩ | hclass := hclass.total
    · rw [htally] at hcount
      exact ⟨by omega, fun _ ht => by omega⟩
    · exact ⟨by omega, fun _ ht => by omega⟩
  | kept hn first hclass himport others ih =>
    have hfirst := first.1
    have hothers := ih.1
    obtain ⟨-, htally, hsame⟩ | hclass := hclass.total
    · -- nothing was counted, so that the declarator is what it was
      dsimp only at hothers ih
      rw [htally] at hothers ih
      refine ⟨by omega, fun hr ht _ => ?_⟩
      obtain ⟨heq, hsame₁⟩ := first.2 hr (by omega)
      cases heq
      have hsame := hsame₁.trans hsame
      obtain ⟨rfl, hsame'⟩ := ih.2 (hsame.renames ▸ hr) (by omega) (by simp)
      exact ⟨by simp, hsame.trans ⟨hsame'.renames, hsame'.imported, hsame'.exported⟩⟩
    · dsimp only at hothers
      exact ⟨by omega, fun _ ht => by omega⟩
  | other hn first hleft others ih =>
    have hfirst := first.1
    have hothers := ih.1
    refine ⟨by omega, fun hr ht _ => ?_⟩
    obtain ⟨rfl, hsame⟩ := first.2 hr (by omega)
    obtain ⟨rfl, hsame'⟩ := ih.2 (hsame.renames ▸ hr) (by omega) (by simp)
    exact ⟨by simp, hsame.trans hsame'⟩
  | empty hn first =>
    refine ⟨first.1, fun hr ht _ => ?_⟩
    obtain ⟨heq, -⟩ := first.2 hr ht
    cases heq

/-- Every visit is idle unless it counts, where booleans and indirect calls are
    left alone. -/
theorem ofNode_idle (hbooleans : e.config.booleans = false)
    (hindirect : e.config.indirectCalls = false) (n : Node) : (ofNode e n).Obeys Idle n := by
  refine ofNode_obeys ?_ ?_ ?_ n
  · intro n inList accepts s s₁ s' slots n' hn hfields hsettle
    obtain ⟨hle, hidle⟩ := hfields.idle
    obtain ⟨rfl, rfl⟩ | hmarks := Surroundings.settle_cases hsettle
    · refine ⟨hle, fun hr ht => ?_⟩
      obtain ⟨rfl, hsame⟩ := hidle hr ht
      rw [Node.withSlots_slots, Surroundings.tidied_of_entries_eq_nil
        (hsame.renames ▸ hr) hbooleans hindirect]
      exact ⟨rfl, hsame⟩
    · have hcount := hmarks.total
      exact ⟨by omega, fun _ ht => by omega⟩
  · exact fun kind inList s => ⟨Nat.le_refl _, fun _ _ => ⟨rfl, .refl _⟩⟩
  · intro kind inList ds ss s s' hds hin
    exact ⟨hin.idle.1, fun hr ht => hin.idle.2 hr ht (by simpa using hds)⟩

end Visit

/-! ## Passes -/

namespace Pass

variable {e : Surroundings}

/-- An export is counted. -/
theorem Exported.total {s s' : PassState} {done rest done' : List Node} {stmt declaration : Node}
    {key binding : Text} (h : Exported s done stmt rest key binding done' declaration s') :
    s'.tally.total = s.tally.total + 1 := by
  cases h <;> rfl

namespace Stage

variable {p q : Stage}

/-- A visited statement for which nothing is counted stands as it was. -/
theorem Advances.idle (hbooleans : e.config.booleans = false)
    (hindirect : e.config.indirectCalls = false) (h : Advances e p q) :
    p.state.tally.total ≤ q.state.tally.total ∧
      (p.state.renames.entries = [] → q.state.tally.total = p.state.tally.total →
        q.done ++ q.rest = p.done ++ p.rest ∧ p.state.Same q.state) := by
  obtain @⟨done, done', stmt, rest, s, s', h⟩ := h
  obtain ⟨ns, s₁, hns, hcases⟩ := step_cases h
  obtain ⟨hle, hidle⟩ := (Visit.ofNode_idle hbooleans hindirect stmt).spliced hns
  obtain ⟨rfl, rfl⟩ | ⟨visited, key, binding, remains, declaration, -, -, -, hexported⟩ := hcases
  · refine ⟨hle, fun hr ht => ?_⟩
    obtain ⟨rfl, hsame⟩ := hidle hr ht
    exact ⟨List.append_assoc .., hsame⟩
  · have hcount := hexported.total
    exact ⟨by dsimp only; omega, fun _ ht => by dsimp only at ht; omega⟩

/-- A run that counts nothing leaves the statements as they are. -/
theorem Leads.idle (hbooleans : e.config.booleans = false)
    (hindirect : e.config.indirectCalls = false) (h : Leads e p q) :
    p.state.tally.total ≤ q.state.tally.total ∧
      (p.state.renames.entries = [] → q.state.tally.total = p.state.tally.total →
        q.done ++ q.rest = p.done ++ p.rest ∧ p.state.Same q.state) := by
  induction h with
  | refl => exact ⟨Nat.le_refl _, fun _ _ => ⟨rfl, .refl _⟩⟩
  | tail _ hstep ih =>
    have hlead := ih.1
    have hnext := (hstep.idle hbooleans hindirect).1
    refine ⟨by omega, fun hr ht => ?_⟩
    obtain ⟨heq, hsame⟩ := ih.2 hr (by omega)
    obtain ⟨heq', hsame'⟩ := (hstep.idle hbooleans hindirect).2 (hsame.renames ▸ hr) (by omega)
    exact ⟨heq'.trans heq, hsame.trans hsame'⟩

end Stage

/-- Without new names, only leftovers of exports go at the end of a pass. -/
theorem renamed_of_entries_eq_nil {s : PassState} (hr : s.renames.entries = []) (body : List Node) :
    renamed e s body =
      if e.config.exports && !s.exported.isEmpty then body.filter (!·.isExportLeftover s.exported)
      else body := by
  rw [renamed, Renaming.sweep_of_entries_eq_nil hr]

/-- No helper becomes idle if nothing is imported and no element is made. -/
theorem idleHelpers_eq_nil {t : Tally} (himports : t.imports = 0) (hmarkup : t.markup = 0) :
    idleHelpers e t = [] := by
  rw [idleHelpers, himports, hmarkup]
  rfl

theorem splice_nil (body : List Node) : splice [] body = body := by
  rw [splice, List.map_nil, List.append_nil, List.takeWhile_append_dropWhile]

end Pass

/-- A pass that rebuilds nothing leaves the program as it was, if the clean-ups
    that are not counted are off. -/
theorem unchanged_of_total_eq_zero {config : Config} {program : Node} {o : Outcome}
    (hbooleans : config.booleans = false) (hindirect : config.indirectCalls = false)
    (hdisplay : config.displayNames = false) (h : reconstruct config program = .ok o)
    (htotal : o.state.tally.total = 0) : o.program = program := by
  obtain ⟨body, hran⟩ := reconstruct_ran h
  have hconfig := reconstruct_config h
  have hstart : Pass.start o.surroundings program body = { names := Names.ofProgram program } := by
    rw [Pass.start, hconfig]
    exact if_neg (by simp [hdisplay])
  obtain ⟨-, hidle⟩ :=
    Pass.Stage.Leads.idle (by rw [hconfig, hbooleans]) (by rw [hconfig, hindirect]) hran.leads
  rw [hstart] at hidle
  obtain ⟨hwalked, hsame⟩ := hidle rfl htotal
  simp only [List.append_nil, List.nil_append] at hwalked
  -- so nothing is renamed, dropped or added at the end
  have hkept : o.kept = body := by
    have hdrops := hran.drops
    have hexported : o.state.exported.isEmpty = true := List.isEmpty_iff.2 hsame.exported
    rw [Pass.renamed_of_entries_eq_nil (congrArg _ hsame.renames), hwalked, hexported,
      Bool.not_true, Bool.and_false, if_neg Bool.false_ne_true] at hdrops
    rw [Tally.total] at htotal
    rw [Pass.idleHelpers_eq_nil (by omega) (by omega)] at hdrops
    exact (Except.ok.inj hdrops).symm
  have hadded : o.added = [] := by
    have hadds := hran.adds
    rw [hsame.imported] at hadds
    exact (Except.ok.inj hadds).symm
  rw [hran.program_eq, hkept, hadded, Pass.splice_nil, Node.withStatements_self hran.statements]

/-- `if (a) var A = require("a"); exports.B = B; React.createElement("p",
    null);` -/
def nothingToRebuild : Node :=
  .program [.ifStmt (.identifier "a") (loading "A" "a") none,
    .exprStmt (.assignment "="
      (.member (.identifier "exports") (.identifier "B") false false) (.identifier "B")),
    .exprStmt (.call (.member (.identifier "React") (.identifier "createElement") false false)
      [.literal (.string "p") none, .literal .null none] false)]

/-- Nothing is rebuilt where an import, an export without a definition or an
    element cannot stand. -/
theorem unchanged_of_total_eq_zero_nothingToRebuild :
    ∃ o, reconstruct { booleans := false, indirectCalls := false, displayNames := false }
      nothingToRebuild = .ok o ∧ o.state.tally.total = 0 ∧ o.program = nothingToRebuild := by
  obtain ⟨o, ho, htotal⟩ : ∃ o,
      reconstruct { booleans := false, indirectCalls := false, displayNames := false }
      nothingToRebuild = .ok o ∧ o.state.tally.total = 0 := exists_outcome (by decide +kernel)
  exact ⟨o, ho, htotal, unchanged_of_total_eq_zero rfl rfl rfl ho htotal⟩

end Resugar
