import Resugar.Proofs.Grammar.Pattern
import Resugar.Proofs.Printer.Shown

/-!
# Destructuring assignments in printed programs

The target of a destructuring assignment is a pattern, and reads as one only
where it stands bare. Brackets do. Braces at the beginning of a statement would
be taken for a block; the printer guards them wherever they are a target, and
puts the parentheses around the target alone. So a pattern in braces is read as
an object in parentheses, which is no target.
-/

namespace Resugar

namespace Node

open Pattern

variable {n left right : Node} {t u target operator value : Text} {path : Path}

theorem print_assignment (h : (assignment operator left right).print = .ok u) :
    ∃ target value, left.print = .ok target ∧ right.operand right.print 3 .right operator =
      .ok value ∧ u = Text.concat [target.parensIf left.isObjectPattern, " ", operator, " ",
        value] := by
  rw [print] at h
  obtain ⟨target, htarget, h⟩ := bind_eq_ok.1 h
  obtain ⟨value, hvalue, h⟩ := bind_eq_ok.1 h
  cases h
  exact ⟨target, value, htarget, hvalue, rfl⟩

theorem parensIf_eq_self_iff (needed : Bool) (t : Text) :
    t.parensIf needed = t ↔ needed = false := by
  cases needed with
  | false => simp [Text.parensIf]
  | true =>
    refine ⟨fun h => ?_, fun h => by cases h⟩
    have := congrArg List.length h
    simp only [Text.parensIf, if_true, Text.parens, Text.concat, List.flatten_cons,
      List.flatten_nil, List.length_append] at this
    have : (Text.ofString "(").length = 1 := rfl
    omega

/-- A pattern in parentheses is no target. -/
theorem not_yields_parens {L : Leaves} (h : left.isObjectPattern = true) (t : Text) :
    ¬Yields L (.target left) t.parens := by
  intro hyields
  generalize hparens : t.parens = u at hyields
  cases hyields with
  | simple hsimple _ => cases left <;> simp [isSimple, isObjectPattern] at hsimple h
  | object _ =>
    have hhead : some (CodePoint.ofChar '(') = some (CodePoint.ofChar '\x7b') :=
        congrArg List.head? hparens
    exact absurd hhead (by decide)
  | array _ => cases h

/-- A text in parentheses is not taken for a block or a declaration. -/
theorem looksLikeStatement_parens_append (t u : Text) :
    (t.parens ++ u).looksLikeStatement = false := by
  rfl

/-- The statement adds only a semicolon to an assignment to such a pattern. -/
theorem print_exprStmt_of_isObjectPattern (h : left.isObjectPattern = true)
    (hu : (assignment operator left right).print = .ok u) :
    (exprStmt (assignment operator left right)).print = .ok (u ++ ";") := by
  have hlooks : u.looksLikeStatement = false := by
    obtain ⟨target, value, _, _, rfl⟩ := print_assignment hu
    rw [h]
    exact looksLikeStatement_parens_append target _
  have hprint : (exprStmt (assignment operator left right)).print = .ok (printStatement u) := by
    rw [print, hu]
    rfl
  rw [hprint, printStatement, hlooks]
  rfl

/-- Wherever an assignment stands, what is left of its operator is the text of
    the target itself if and only if the target is no pattern in braces; then,
    and only then, is it read as the target. A pattern in braces stands in
    parentheses of its own, also where the assignment is a statement. -/
theorem destructuring_target_iff (ht : n.print = .ok t)
    (h : n.at? path = some (assignment operator left right)) (hhides : ¬n.Hides path) :
    ∃ place target value, n.Places path place ∧ place.whole = t ∧ left.print = .ok target ∧
      right.operand right.print 3 .right operator = .ok value ∧
      place.text = Text.concat [target.parensIf left.isObjectPattern, " ", operator, " ", value] ∧
      (target.parensIf left.isObjectPattern = target ↔ left.isObjectPattern = false) ∧
      (∀ (L : Leaves) source, Yields L (.target left) source →
        Yields L (.target left) target ∧
          (Yields L (.target left) (target.parensIf left.isObjectPattern) ↔
            left.isObjectPattern = false)) ∧
      (left.isObjectPattern = true → (exprStmt (assignment operator left right)).print =
        .ok (Text.concat ["(", target, ")", " ", operator, " ", value, ";"])) := by
  have hreveals := reveals_of_not_hides ht h hhides
  obtain ⟨k, u, hu, _⟩ := id hreveals
  obtain ⟨place, hplace, htext⟩ := hreveals.exists_place hu
  obtain ⟨target, value, htarget, hvalue, rfl⟩ := print_assignment hu
  refine ⟨place, target, value, hplace, hplace.whole_eq ht, htarget, hvalue,
    htext, parensIf_eq_self_iff _ _,
    fun L source hsource => ⟨hsource.print htarget, ?_⟩, fun hobject => ?_⟩
  · cases hobject : left.isObjectPattern with
    | false => simpa [Text.parensIf] using hsource.print htarget
    | true => simpa [Text.parensIf] using not_yields_parens hobject target
  · rw [print_exprStmt_of_isObjectPattern hobject hu, hobject]
    simp [Text.parensIf, Text.parens, Text.concat]

/-- The pattern `[a, , { b = c }, ...d]`. -/
def gathered : Node :=
  arrayPattern [some (identifier "a"), none,
    some (objectPattern [entry (identifier "b") (defaultPattern (identifier "b") (identifier "c"))
      .init false true false]), some (restPattern (identifier "d"))]

/-- As an argument, with a hole, a pattern with a default, and a rest. -/
theorem destructuring_target_in_call :
    ∃ place,
      (program [exprStmt
        (call (identifier "f") [assignment "=" gathered (identifier "x")] false)]).Places
        [.field "body", .index 0, .field "expression", .field "arguments", .index 0] place ∧
      place.whole = "f([a, , \x7b b = c \x7d, ...d] = x);" ∧
      place.text = "[a, , \x7b b = c \x7d, ...d] = x" ∧
      Yields .printed (.target gathered) "[a, , \x7b b = c \x7d, ...d]" := by
  have hhides : ¬(program [exprStmt
      (call (identifier "f") [assignment "=" gathered (identifier "x")] false)]).Hides
      [.field "body", .index 0, .field "expression", .field "arguments", .index 0] := by
    iterate 3
      refine not_hides_of_hops (fun _ h => by cases h) (fun _ h => by cases h) ?_
      simp [hops, fields, holeSteps, or_imp, forall_and]
    exact not_hides_nil _
  have hprint : (program [exprStmt
      (call (identifier "f") [assignment "=" gathered (identifier "x")] false)]).print =
        .ok "f([a, , \x7b b = c \x7d, ...d] = x);" := by
    decide +kernel
  have hgathered : gathered.print = .ok "[a, , \x7b b = c \x7d, ...d]" := by
    decide +kernel
  have hname (name : Text) : Yields .printed (.target (identifier name)) name := .simple rfl rfl
  have hproperty : Yields .printed
      (.property (entry (identifier "b") (defaultPattern (identifier "b") (identifier "c"))
        .init false true false)) _ :=
    .shorthand (by decide) (.default (hname "b") (u := "c") rfl isBlank_nil isBlank_nil)
  have hsource : Yields .printed (.target gathered) _ :=
    .array (.moreElements (.bare (hname "a"))
      (.hole
        (.moreElements (.bare (.object (.lastProperty hproperty isBlank_nil isBlank_nil)))
          (.restElement (hname "d") isBlank_nil isBlank_nil isBlank_nil) isBlank_nil isBlank_nil)
        isBlank_nil)
      isBlank_nil isBlank_nil)
  obtain ⟨place, target, value, hplace, hwhole, htarget, hvalue, htext, _, hreads, _⟩ :=
    destructuring_target_iff hprint rfl hhides
  obtain rfl := Except.ok.inj (hgathered.symm.trans htarget)
  cases hvalue
  exact ⟨place, hplace, hwhole, htext, (hreads .printed _ hsource).1⟩

/-- A pattern in braces, as a statement: the assignment has no target. -/
theorem destructuring_statement_parens :
    (objectPattern [entry (identifier "a") (identifier "a") .init false true false]).print =
      .ok "\x7b a \x7d" ∧
      (program [exprStmt (assignment "="
        (objectPattern [entry (identifier "a") (identifier "a") .init false true false])
        (identifier "b"))]).print = .ok "(\x7b a \x7d) = b;" ∧
      ∀ L, ¬Yields L
        (.target (objectPattern [entry (identifier "a") (identifier "a") .init false true false]))
        "(\x7b a \x7d)" :=
  ⟨by decide +kernel, by decide +kernel,
    fun _ => not_yields_parens rfl "\x7b a \x7d"⟩

end Node

end Resugar
