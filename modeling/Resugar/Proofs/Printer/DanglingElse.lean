import Resugar.Proofs.Printer.Nesting

/-!
# To which `if` an `else` belongs

An `else` belongs to the nearest `if` before it that has none. So what stands
between an `if` and its own `else` must not end with such an `if`, at any depth;
if it does, it is *open* (`Node.IsOpen`), and has to stand in braces. The
printer looks at the statement itself only (`Node.takesElse`).

`Node.GivesElse` puts an `else` where a reader does: at the last `if` of an open
statement. Where braces are missing, this is another tree with the same text.
-/

namespace Resugar

namespace Node

/-- Statements that end with an `if` without an `else`. -/
inductive IsOpen : Node → Prop where
  | ifStmt {test consequent : Node} : IsOpen (ifStmt test consequent none)
  | alternate {test consequent alternate : Node} :
    IsOpen alternate → IsOpen (Node.ifStmt test consequent (some alternate))
  | forStmt {init test step : Option Node} {body : Node} :
    IsOpen body → IsOpen (forStmt init test step body)
  | forInStmt {left right body : Node} {isOf isAwait : Bool} :
    IsOpen body → IsOpen (forInStmt left right body isOf isAwait)
  | whileStmt {test body : Node} : IsOpen body → IsOpen (whileStmt test body)
  | labeledStmt {label : Text} {body : Node} : IsOpen body → IsOpen (labeledStmt label body)

/-- What may stand around the last part of a statement. -/
inductive Trails : (Node → Node) → Prop where
  | consequent (test : Node) : Trails fun n => ifStmt test n none
  | alternate (test consequent : Node) : Trails fun n => ifStmt test consequent (some n)
  | forStmt (init test step : Option Node) : Trails fun n => Node.forStmt init test step n
  | forInStmt (left right : Node) (isOf isAwait : Bool) : Trails fun n =>
    Node.forInStmt left right n isOf isAwait
  | whileStmt (test : Node) : Trails fun n => Node.whileStmt test n
  | labeledStmt (label : Text) : Trails fun n => Node.labeledStmt label n

/-- A statement and the same statement in which the last `if` has an `else`. -/
inductive GivesElse (alternate : Node) : Node → Node → Prop where
  | here {test consequent : Node} : ¬consequent.IsOpen →
    GivesElse alternate (ifStmt test consequent none) (ifStmt test consequent (some alternate))
  | inside {around : Node → Node} {n n' : Node} : Trails around → GivesElse alternate n n' →
    GivesElse alternate (around n) (around n')

variable {n n' c alternate test : Node} {t u : Text} {path : Path} {around : Node → Node}

/-! ## Open statements -/

theorem isOpen_of_takesElse (h : n.takesElse = true) : n.IsOpen := by
  unfold takesElse at h
  split at h
  · exact .ifStmt
  · cases h

theorem Trails.isOpen (h : Trails around) (hn : n.IsOpen) : (around n).IsOpen := by
  cases h with
  | consequent => exact .ifStmt
  | alternate => exact .alternate hn
  | forStmt => exact .forStmt hn
  | forInStmt => exact .forInStmt hn
  | whileStmt => exact .whileStmt hn
  | labeledStmt => exact .labeledStmt hn

theorem GivesElse.isOpen (h : alternate.GivesElse n n') : n.IsOpen := by
  induction h with
  | here _ => exact .ifStmt
  | inside haround _ ih => exact haround.isOpen ih

theorem Trails.size_lt (h : Trails around) (n : Node) : n.size < (around n).size := by
  cases h <;> exact size_lt_of_mem_children
    (by simp [children, fields, Field.walkedNodes, Field.single, Slot.nodes])

/-- An open statement takes one more `else`, and no other statement does. -/
theorem exists_givesElse_iff : (∃ n', alternate.GivesElse n n') ↔ n.IsOpen := by
  constructor
  · rintro ⟨_, h⟩
    exact h.isOpen
  intro h
  -- an `if` without an `else` may have another one in it, so the induction is
  -- on the size
  induction hsize : n.size using Nat.strongRecOn generalizing n with
  | ind size ih =>
    have hinside {around : Node → Node} {m : Node} (haround : Trails around) (hn : n = around m)
        (hm : m.IsOpen) : ∃ n', alternate.GivesElse n n' := by
      subst hn
      obtain ⟨m', hm'⟩ := ih _ (hsize ▸ haround.size_lt m) hm rfl
      exact ⟨_, .inside haround hm'⟩
    cases h with
    | @ifStmt test consequent =>
      by_cases hopen : consequent.IsOpen
      · exact hinside (.consequent test) rfl hopen
      · exact ⟨_, .here hopen⟩
    | alternate h => exact hinside (.alternate ..) rfl h
    | forStmt h => exact hinside (.forStmt ..) rfl h
    | forInStmt h => exact hinside (.forInStmt ..) rfl h
    | whileStmt h => exact hinside (.whileStmt _) rfl h
    | labeledStmt h => exact hinside (.labeledStmt _) rfl h

/-! ## Their texts -/

theorem print_ifStmt_none (test consequent : Node) : (ifStmt test consequent none).print = do
    return Text.concat ["if (", ← test.print, ") ", ← consequent.print] := by
  rw [print]
  simp [printOption, Text.concat]

/-- The text of an `if` with an `else`: what would take that is in braces. -/
theorem print_ifStmt_some (test consequent alternate : Node) :
    (ifStmt test consequent (some alternate)).print = do
      let t ← test.print
      let c ← consequent.print
      return Text.concat ["if (", t, ") ", if consequent.takesElse then Text.braces [c] else c,
        " else ", ← alternate.print] := by
  rw [print]
  simp [printOption, Text.concat]

/-- The head of a loop is printed before its body, whichever way it begins. -/
theorem exists_print_forStmt (init test step : Option Node) :
    ∃ start : Printed, ∀ body, (forStmt init test step body).print = do
      let i ← start
      let t ← (printOption test).mapM fun (p : Node × Printed) => do return Text.concat [" ", ← p.2]
      let s ← (printOption step).mapM fun (p : Node × Printed) => do return Text.concat [" ", ← p.2]
      return Text.concat ["for (", i, ";", t.getD [], ";", s.getD [], ") ", ← body.print] := by
  rcases init with _ | init
  · exact ⟨.ok [], fun body => by rw [print]; rfl⟩
  by_cases hdecl : ∃ kind declarators, init = varDecl kind declarators
  · obtain ⟨kind, declarators, rfl⟩ := hdecl
    exact ⟨_, fun body => by rw [print]⟩
  · have hother : ∀ kind declarators, init = varDecl kind declarators → False :=
      fun kind declarators h => hdecl ⟨kind, declarators, h⟩
    exact ⟨_, fun body => by rw [print]; exact hother⟩

theorem exists_print_forInStmt (left right : Node) (isOf isAwait : Bool) :
    ∃ start : Printed, ∀ body, (forInStmt left right body isOf isAwait).print = do
      return Text.concat [if isAwait then "for await (" else "for (", ← start,
        if isOf then " of " else " in ", ← right.print, ") ", ← body.print] := by
  by_cases hdecl : ∃ kind declarators, left = varDecl kind declarators
  · obtain ⟨kind, declarators, rfl⟩ := hdecl
    exact ⟨_, fun body => by rw [print]⟩
  · have hother : ∀ kind declarators, left = varDecl kind declarators → False :=
      fun kind declarators h => hdecl ⟨kind, declarators, h⟩
    exact ⟨_, fun body => by rw [print]; exact hother⟩

/-- The text of the last part of a statement is its last piece. -/
theorem Trails.exists_before (h : Trails around) :
    ∃ before : Except Fault (List Text), ∀ n,
      (around n).print = do return Text.concat ((← before) ++ [← n.print]) := by
  cases h with
  | consequent test =>
    refine ⟨do return ["if (", ← test.print, ") "], fun n => ?_⟩
    simp only [print_ifStmt_none, bind_assoc, pure_bind]
    rfl
  | alternate test consequent =>
    refine ⟨do
      let t ← test.print
      let c ← consequent.print
      return ["if (", t, ") ", if consequent.takesElse then Text.braces
        [c] else c, " else "], fun n => ?_⟩
    simp only [print_ifStmt_some, bind_assoc, pure_bind]
    rfl
  | forStmt init test step =>
    obtain ⟨start, hstart⟩ := exists_print_forStmt init test step
    refine ⟨do
      let i ← start
      let t ← (printOption test).mapM fun (p : Node × Printed) => do return Text.concat [" ", ← p.2]
      let s ← (printOption step).mapM fun (p : Node × Printed) => do return Text.concat [" ", ← p.2]
      return ["for (", i, ";", t.getD [], ";", s.getD [], ") "], fun n => ?_⟩
    simp only [hstart, bind_assoc, pure_bind]
    rfl
  | forInStmt left right isOf isAwait =>
    obtain ⟨start, hstart⟩ := exists_print_forInStmt left right isOf isAwait
    refine ⟨do
      return [if isAwait then "for await (" else "for (", ← start,
        if isOf then " of " else " in ", ← right.print, ") "],
      fun n => ?_⟩
    simp only [hstart, bind_assoc, pure_bind]
    rfl
  | whileStmt test =>
    refine ⟨do return ["while (", ← test.print, ") "], fun n => ?_⟩
    simp only [bind_assoc, pure_bind]
    rw [print]
    rfl
  | labeledStmt label =>
    refine ⟨pure [label, ": "], fun n => ?_⟩
    rw [print]
    rfl

/-- Where a statement takes one more `else`, its text goes on with it. -/
theorem GivesElse.print (h : alternate.GivesElse n n') (ht : n.print = .ok t)
    (hu : alternate.print = .ok u) : n'.print = .ok (Text.concat [t, " else ", u]) := by
  induction h generalizing t with
  | @here test consequent hopen =>
    have helse : consequent.takesElse = false :=
      Bool.eq_false_iff.2 fun h => hopen (isOpen_of_takesElse h)
    rw [print_ifStmt_none] at ht
    obtain ⟨v, hv, ht⟩ := bind_eq_ok.1 ht
    obtain ⟨w, hw, ht⟩ := bind_eq_ok.1 ht
    cases ht
    rw [print_ifStmt_some, hv, hw, hu, helse]
    exact congrArg Except.ok (by simp [Text.concat])
  | inside haround _ ih =>
    obtain ⟨before, hbefore⟩ := haround.exists_before
    rw [hbefore] at ht
    obtain ⟨v, hv, ht⟩ := bind_eq_ok.1 ht
    obtain ⟨w, hw, ht⟩ := bind_eq_ok.1 ht
    cases ht
    rw [hbefore, hv, ih hw]
    exact congrArg Except.ok (by simp [Text.concat])

/-! ## Braces -/

theorem braces_ne (t : Text) : Text.braces [t] ≠ t := by
  intro h
  have hlength := congrArg List.length h
  have := Text.length_le_length_shift true t
  simp [Text.braces, Text.concat, Text.indent_eq_shift, Text.ofString] at hlength
  omega

/-- The text of an `if` with an `else`. -/
def elseText (braced : Bool) (test consequent alternate : Text) : Text :=
  Text.concat ["if (", test, ") ",
    if braced then Text.braces [consequent] else consequent, " else ", alternate]

theorem elseText_inj {b b' : Bool} {v : Text} : elseText b t v u = elseText b' t v u ↔ b = b' := by
  have := braces_ne v
  cases b <;> cases b' <;> simp [elseText, Text.concat, this, this.symm]

/-- Where the last `if` of what stands before an `else` takes it, the text is
    the one without braces. -/
theorem GivesElse.print_ifStmt {w : Text} (h : alternate.GivesElse c n') (hw : test.print = .ok w)
    (ht : c.print = .ok t) (hu : alternate.print = .ok u) :
    (ifStmt test n' none).print = .ok (elseText false w t u) := by
  rw [print_ifStmt_none, hw, h.print ht hu]
  exact congrArg Except.ok (by simp [elseText, Text.concat])

/-- Wherever an `if` with an `else` stands, what is before the `else` is put in
    braces where it is open, if and only if it is itself an `if` without an
    `else` or is not open. Where braces are missing, the `if` has the text of
    another one: the one in which the `else` belongs to the last `if` before it.
    Elsewhere it has not. -/
theorem else_braced_iff (ht : n.print = .ok t)
    (h : n.at? path = some (ifStmt test c (some alternate))) (hhides : ¬n.Hides path) :
    ∃ place testText text alternateText, n.Places path place ∧ place.whole = t ∧
      test.print = .ok testText ∧ c.print = .ok text ∧ alternate.print = .ok alternateText ∧
      ((c.IsOpen → place.text = elseText true testText text alternateText) ↔
        (c.IsOpen → c.takesElse = true)) ∧
      (¬c.IsOpen → place.text = elseText false testText text alternateText) ∧
      ((∃ c', alternate.GivesElse c c' ∧ (ifStmt test c' none).print = .ok place.text) ↔
        c.IsOpen ∧ c.takesElse = false) := by
  have hreveals := reveals_of_not_hides ht h hhides
  obtain ⟨k, u, hu, _⟩ := id hreveals
  obtain ⟨place, hplace, htext⟩ := hreveals.exists_place hu
  rw [print_ifStmt_some] at hu
  obtain ⟨testText, htest, hu⟩ := bind_eq_ok.1 hu
  obtain ⟨text, hc, hu⟩ := bind_eq_ok.1 hu
  obtain ⟨alternateText, halternate, hu⟩ := bind_eq_ok.1 hu
  have hplaceText : place.text = elseText c.takesElse testText text alternateText :=
    htext.trans (Except.ok.inj hu).symm
  refine ⟨place, testText, text, alternateText, hplace, hplace.whole_eq ht, htest,
    hc, halternate, ?_, ?_, ?_⟩
  · rw [hplaceText, elseText_inj]
  · intro hopen
    rw [hplaceText, elseText_inj]
    exact Bool.eq_false_iff.2 fun h => hopen (isOpen_of_takesElse h)
  constructor
  · rintro ⟨c', hgives, hprint⟩
    rw [hgives.print_ifStmt htest hc halternate, hplaceText] at hprint
    exact ⟨hgives.isOpen, (elseText_inj.1 (Except.ok.inj hprint)).symm⟩
  · rintro ⟨hopen, helse⟩
    obtain ⟨c', hgives⟩ := exists_givesElse_iff.2 hopen
    exact ⟨c', hgives, by rw [hgives.print_ifStmt htest hc halternate, hplaceText, helse]⟩

/-- A statement that is a name. -/
def nameStmt (name : String) : Node :=
  exprStmt (identifier name)

/-- An `if` with an `else` after an `if` without one, in a block. -/
def elseInBlock : Node :=
  program [block [ifStmt (identifier "a")
    (ifStmt (identifier "b") (nameStmt "c") none) (some (nameStmt "d"))]]

/-- The inner `if` is put in braces, and so the `else` is not its own. -/
theorem else_braced_in_block : elseInBlock.print =
      .ok "\x7b\n  if (a) \x7b\n    if (b) c;\n  \x7d else d;\n\x7d" ∧
    ∃ place, elseInBlock.Places [.field "body", .index 0, .field "body", .index 0] place ∧
      place.text = elseText true "a" "if (b) c;" "d;" ∧
      ¬∃ c', (nameStmt "d").GivesElse (ifStmt (identifier "b") (nameStmt "c") none) c' ∧
        (ifStmt (identifier "a") c' none).print = .ok place.text := by
  have hhides : ¬elseInBlock.Hides [.field "body", .index 0, .field "body", .index 0] := by
    rw [elseInBlock]
    iterate 2
      refine not_hides_of_hops (fun _ h => by cases h) (fun _ h => by cases h) ?_
      simp [hops, fields, holeSteps]
    exact not_hides_nil _
  have hprint : elseInBlock.print =
      .ok "\x7b\n  if (a) \x7b\n    if (b) c;\n  \x7d else d;\n\x7d" := by
    decide +kernel
  obtain ⟨place, testText, text, alternateText, hplace, _, htest, hc,
    halternate, hbraced, _, hother⟩ :=
    else_braced_iff hprint rfl hhides
  obtain rfl : testText = "a" := Except.ok.inj (htest.symm.trans (by decide +kernel))
  obtain rfl : text = "if (b) c;" := Except.ok.inj (hc.symm.trans (by decide +kernel))
  obtain rfl : alternateText = "d;" := Except.ok.inj (halternate.symm.trans (by decide +kernel))
  exact ⟨hprint, place, hplace, hbraced.2 (fun _ => rfl) .ifStmt, fun h => by cases (hother.1 h).2⟩

/-- A loop over an `if` without an `else` is open and is not put in braces: an
    `else` after it has the text of an `else` in it. -/
theorem else_taken_in_loop :
    (whileStmt (identifier "b") (ifStmt (identifier "c") (nameStmt "d") none)).IsOpen ∧
      (program [ifStmt (identifier "a")
        (whileStmt (identifier "b") (ifStmt (identifier "c") (nameStmt "d") none))
        (some (nameStmt "e"))]).print = .ok "if (a) while (b) if (c) d; else e;" ∧
      (program [ifStmt (identifier "a")
        (whileStmt (identifier "b") (ifStmt (identifier "c") (nameStmt "d") (some (nameStmt "e"))))
        none]).print = .ok "if (a) while (b) if (c) d; else e;" :=
  ⟨.whileStmt .ifStmt, by decide +kernel, by decide +kernel⟩

end Node

end Resugar
