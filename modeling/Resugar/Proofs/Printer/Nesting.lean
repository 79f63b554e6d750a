import Resugar.Proofs.Printer.Shown
import Resugar.Proofs.Text.TemplateValue

/-!
# String literals and templates in nested code

Moving a text to the right leaves it as it is if there is no line feed in it,
and makes it longer if there is one that is not its last code point. A string
literal may have line feeds: a backslash before one continues the literal on the
next line, and in braces the blanks before that line become part of the literal.
The pieces of a template are on one line when they are printed, and so they are
never changed by what is around them.
-/

namespace Resugar

open CodePoint (ofChar)

namespace Text

variable {t : Text} {b : Bool}

/-- A text without line feeds is moved as a whole. -/
theorem shift_false_of_notMem (h : ofChar '\n' ∉ t) : shift false t = t := by
  induction t with
  | nil => rfl
  | cons c t ih =>
    have hfeed : isFeed c = false := by simpa [isFeed] using (List.ne_of_not_mem_cons h).symm
    rw [shift, hfeed, ih (List.not_mem_of_not_mem_cons h)]
    rfl

theorem nest_of_notMem (h : ofChar '\n' ∉ t) (depth : Nat) : nest depth t = t := by
  induction depth with
  | zero => rfl
  | succ depth ih => rw [nest, ih, shift_false_of_notMem h]

theorem length_le_length_shift (b : Bool) (t : Text) : t.length ≤ (shift b t).length := by
  induction t generalizing b with
  | nil => rfl
  | cons c t ih =>
    have := ih (isFeed c)
    rw [shift, List.length_append, List.length_cons, List.length_cons]
    omega

/-- A text with a line to move gets longer, unless its last line is empty. -/
theorem length_lt_length_shift (hends : endsLine b t = false)
    (h : b = true ∨ ofChar '\n' ∈ t) : t.length < (shift b t).length := by
  induction t generalizing b with
  | nil =>
    obtain rfl | h := h
    · cases hends
    · cases h
  | cons c t ih =>
    rw [endsLine_cons] at hends
    rw [shift, List.length_append, List.length_cons, List.length_cons]
    cases hfeed : isFeed c with
    | true =>
      -- the level is written further on, before what the next line begins with
      rw [hfeed] at hends
      have := ih hends (.inl rfl)
      omega
    | false =>
      rw [hfeed] at hends
      obtain rfl | h := h
      · have := length_le_length_shift false t
        have : level.length = 2 := rfl
        simp only [Bool.not_false, Bool.and_self, if_true]
        omega
      · have hc : '\n' ≠ c := by
          rintro rfl
          cases hfeed
        have := ih hends (.inr (List.mem_of_ne_of_mem hc h))
        omega

theorem endsLine_shift (a : Bool) : endsLine a (shift b t) = endsLine a t := by
  induction t generalizing a b with
  | nil => rfl
  | cons c t ih => rw [shift, endsLine_append, endsLine_cons, ih, endsLine_cons]

theorem mem_shift {c : CodePoint} (h : c ∈ t) : c ∈ shift b t := by
  induction t generalizing b with
  | nil => cases h
  | cons d t ih =>
    rw [shift]
    obtain _ | ⟨_, h⟩ := h
    · simp
    · simp [ih h]

/-- In the middle of a line and with something in its last line, a text with a
    line feed is made longer by every level. -/
theorem add_depth_le_length_nest (hends : endsLine false t = false)
    (h : ofChar '\n' ∈ t) (depth : Nat) :
    endsLine false (nest depth t) = false ∧ ofChar '\n' ∈ nest depth t ∧
      t.length + depth ≤ (nest depth t).length := by
  induction depth with
  | zero => exact ⟨hends, h, le_rfl⟩
  | succ depth ih =>
    obtain ⟨hends', h', hle⟩ := ih
    refine ⟨by rw [nest, endsLine_shift, hends'], mem_shift h', ?_⟩
    have := length_lt_length_shift hends' (.inr h')
    rw [nest]
    omega

theorem nest_eq_self_iff (hends : endsLine false t = false) (depth : Nat) :
    nest depth t = t ↔ depth = 0 ∨ ofChar '\n' ∉ t := by
  refine ⟨fun heq => ?_, ?_⟩
  · by_contra! hne
    obtain ⟨hdepth, hmem⟩ := hne
    have := (add_depth_le_length_nest hends hmem depth).2.2
    rw [heq] at this
    omega
  · rintro (rfl | h)
    · rfl
    · exact nest_of_notMem h depth

end Text

/-- The string literals of the language, as they are spelled. -/
def StringLiteral.IsToken (t : Text) : Prop :=
  ∃ quote body units, (quote = ofChar '"' ∨ quote = ofChar '\'') ∧
    StringCharacters quote body units ∧ t = quote :: body ++ [quote]

/-- A string literal ends with a quote, and so not with a line feed. -/
theorem StringLiteral.IsToken.endsLine_eq {t : Text} (h : IsToken t) :
    t.endsLine false = false := by
  obtain ⟨quote, body, _, hquote, _, rfl⟩ := h
  rw [Text.endsLine_append]
  obtain rfl | rfl := hquote <;> rfl

namespace Node

open StringLiteral

variable {n : Node} {t value spelling : Text} {path : Path}

/-- A string literal is printed as it is spelled if and only if it stands at the
    top or is spelled on one line; as the value of an attribute it is written in
    the way of markup. -/
theorem string_token_eq_iff (ht : n.print = .ok t)
    (h : n.at? path = some (literal (.string value) (some spelling))) (htoken : IsToken spelling) :
    (¬n.Hides path → ∃ place, n.Places path place ∧ place.whole = t ∧ place.text = spelling ∧
      (place.token = spelling ↔ place.depth = 0 ∨ ofChar '\n' ∉ spelling)) ∧
    ∀ above name, path = above ++ [.field "value"] → ¬n.Hides above →
      n.at? above = some (namedAttribute name (some (literal (.string value) (some spelling)))) →
        ∃ place, n.Places path place ∧ place.whole = t ∧ place.text = value.attributeString := by
  refine ⟨fun hhides => ?_, ?_⟩
  · obtain ⟨place, hplace, htext⟩ :=
      (reveals_of_not_hides ht h hhides).exists_place (u := spelling) (by rw [print])
    refine ⟨place, hplace, hplace.whole_eq ht, htext, ?_⟩
    rw [Occurrence.token, htext]
    exact Text.nest_eq_self_iff htoken.endsLine_eq place.depth
  · rintro above name rfl hhides hattribute
    have hown : .own [.field "value"] value.attributeString ∈
        (namedAttribute name (some (literal (.string value) (some spelling)))).segments := by
      simp [Segments.concat, Segments.own]
    obtain ⟨place, hplace, htext⟩ :=
      (reveals_of_not_hides ht hattribute hhides).exists_place_own hown
    exact ⟨place, hplace, hplace.whole_eq ht, htext⟩

/-- The program `switch (x) { default: 'a\x62'; }`. -/
def quotedInSwitch : Node :=
  program [switchStmt (identifier "x")
    [switchCase none [exprStmt (literal (.string "ab") (some "'a\\x62'"))]]]

/-- In a case of a `switch`, two levels deep. -/
theorem string_token_in_switch :
    IsToken "'a\\x62'" ∧
      ∃ place, quotedInSwitch.Places
        [.field "body", .index 0, .field "cases", .index 0, .field "consequent", .index 0,
          .field "expression"] place ∧
      place.whole = "switch (x) \x7b\n  default:\n    'a\\x62';\n\x7d" ∧
      place.token = "'a\\x62'" := by
  have hhides : ¬quotedInSwitch.Hides [.field "body", .index 0, .field "cases", .index 0,
      .field "consequent", .index 0, .field "expression"] := by
    rw [quotedInSwitch]
    iterate 4
      refine not_hides_of_hops (fun _ h => by cases h) (fun _ h => by cases h) ?_
      simp [hops, fields, holeSteps, or_imp, forall_and]
    exact not_hides_nil _
  have hprint : quotedInSwitch.print =
      .ok "switch (x) \x7b\n  default:\n    'a\\x62';\n\x7d" := by
    decide +kernel
  have htoken : IsToken "'a\\x62'" :=
    ⟨'\'', "a\\x62", _, .inr rfl,
      .char (by decide) (by decide) (by decide) (by decide)
      (.escape (.common (@Escape.hex _ "62" rfl rfl)) .nil), rfl⟩
  obtain ⟨place, hplace, hwhole, _, hiff⟩ := (string_token_eq_iff hprint rfl htoken).1 hhides
  exact ⟨htoken, place, hplace, hwhole, hiff.2 (.inr (by decide))⟩

/-- A literal continued on a second line, in a block, is not as spelled. -/
theorem string_token_in_block :
    IsToken "\"a\\\nb\"" ∧
      (program [block [exprStmt (literal (.string "ab") (some "\"a\\\nb\""))]]).print =
        .ok "\x7b\n  \"a\\\n  b\";\n\x7d" ∧
      ¬"\"a\\\nb\"" <:+: Text.ofString "\x7b\n  \"a\\\n  b\";\n\x7d" := by
  have hsecond : StringCharacters '"' "b"
      (Text.utf16 "b") :=
    .char (by decide) (by decide) (by decide) (by decide) .nil
  have hbody : StringCharacters '"' "a\\\nb"
      (Text.utf16 "ab") :=
    .char (by decide) (by decide) (by decide) (by decide)
      (.escape (.continuation .lineFeed) hsecond)
  exact ⟨⟨_, _, _, .inl rfl, hbody, rfl⟩, by decide +kernel, by decide +kernel⟩

/-! ## Templates -/

/-- Every piece of a template has a place in its text. -/
theorem own_mem_templateSegments {quasis : List Text} {i : Nat} {quasi : Text}
    (hi : quasis[i]? = some quasi) (j : Nat) (expressions : List Node) :
    .own [.field "quasis", .index (j + i)] quasi.foldLines ∈
      templateSegments j quasis expressions := by
  induction quasis generalizing i j expressions with
  | nil => cases hi
  | cons q quasis ih =>
    cases i with
    | zero =>
      cases hi
      cases expressions <;> simp [templateSegments]
    | succ i =>
      have hrest := fun es => ih hi (j + 1) es
      rw [Nat.add_right_comm] at hrest
      cases expressions <;> simp [templateSegments, ← Nat.add_assoc, hrest]

/-- Wherever a template stands, a piece of it has one cooked value in print. It
    is the one of the piece if and only if no backslash of it is followed by a
    line end that is written as an escape. -/
theorem template_piece_cooked_iff {quasis : List Text} {expressions : List Node} {i : Nat}
    {quasi : Text} {units : List Nat} (ht : n.print = .ok t)
    (h : n.at? path = some (template quasis expressions)) (hhides : ¬n.Hides path)
    (hi : quasis[i]? = some quasi) (hunits : TemplateCharacters quasi units) :
    ∃ place printed, n.Places (path ++ [.field "quasis", .index i]) place ∧ place.whole = t ∧
      (∀ units', TemplateCharacters place.token units' ↔ units' = printed) ∧
      (printed = units ↔ ∀ tail ∈ quasi.escapeTails, beginsFolded tail = false) := by
  have hown : .own [.field "quasis", .index i] quasi.foldLines ∈
      (template quasis expressions).segments := by
    have := own_mem_templateSegments hi 0 expressions
    simpa [Segments.concat, Segments.mark] using this
  obtain ⟨place, hplace, htext⟩ := (reveals_of_not_hides ht h hhides).exists_place_own hown
  have htoken : place.token = quasi.foldLines := by
    rw [Occurrence.token, htext]
    exact Text.nest_of_notMem (lineFeed_notMem_foldLines quasi) place.depth
  obtain ⟨printed, hprinted, hiff⟩ := foldLines_cooked_iff hunits
  exact ⟨place, printed, hplace, hplace.whole_eq ht, htoken ▸ hprinted, hiff⟩

/-- A template in a block: two pieces, the second over three lines. -/
def templateInBlock : Node :=
  program [block [exprStmt (template ["x", "a\n\\\\\nb"] [identifier "y"])]]

/-- A line feed after a letter, and another one after an escaped backslash. -/
theorem template_piece_in_block :
    TemplateCharacters "a\n\\\\\nb" [97, 10, 92, 10, 98] ∧
      ∃ place, templateInBlock.Places
        [.field "body", .index 0, .field "body", .index 0, .field "expression", .field "quasis",
          .index 1] place ∧
      place.whole = "\x7b\n  \x60x$\x7by\x7da\\n\\\\\\nb\x60;\n\x7d" ∧
      TemplateCharacters place.token [97, 10, 92, 10, 98] := by
  have hhides : ¬templateInBlock.Hides [.field "body", .index 0, .field "body", .index 0,
      .field "expression"] := by
    rw [templateInBlock]
    iterate 3
      refine not_hides_of_hops (fun _ h => by cases h) (fun _ h => by cases h) ?_
      simp [hops, fields, holeSteps]
    exact not_hides_nil _
  have hprint : templateInBlock.print =
      .ok "\x7b\n  \x60x$\x7by\x7da\\n\\\\\\nb\x60;\n\x7d" := by decide +kernel
  have hb : TemplateCharacters "b" [98] :=
    .cons (.char (by decide) (by decide) (by decide) rfl) .nil
  have hfeed : TemplateCharacters "\nb" [10, 98] := .cons (.lineBreak .lineFeed) hb
  have hbackslash : TemplateCharacters "\\\\\nb" [92, 10, 98] :=
    .cons (.escape (.single (c := '\\') (by decide))) hfeed
  have hunits : TemplateCharacters "a\n\\\\\nb" [97, 10, 92, 10, 98] :=
    .cons (.char (by decide) (by decide) (by decide) rfl) (.cons (.lineBreak .lineFeed) hbackslash)
  obtain ⟨place, printed, hplace, hwhole, hprinted, hiff⟩ :=
    template_piece_cooked_iff hprint rfl hhides (i := 1) rfl hunits
  exact ⟨hunits, place, hplace, hwhole, (hprinted _).2 (hiff.2 (by decide)).symm⟩

/-- A piece continued on a second line: a backslash and an `n` are added. -/
theorem template_piece_continued :
    TemplateCharacters "a\\\nb" [97, 98] ∧
      (program [exprStmt (template ["a\\\nb"] [])]).print = .ok "\x60a\\\\nb\x60;" ∧
      TemplateCharacters "a\\\\nb" [97, 92, 110, 98] := by
  have hb : TemplateCharacters "b" [98] :=
    .cons (.char (by decide) (by decide) (by decide) rfl) .nil
  have hcontinued : TemplateCharacters "\\\nb" [98] := .cons (.continuation .lineFeed) hb
  have hn : TemplateCharacters "nb" [110, 98] :=
    .cons (.char (by decide) (by decide) (by decide) rfl) hb
  have hbackslash : TemplateCharacters "\\\\nb" [92, 110, 98] :=
    .cons (.escape (.single (c := '\\') (by decide))) hn
  exact ⟨.cons (.char (by decide) (by decide) (by decide) rfl) hcontinued, by decide +kernel,
    .cons (.char (by decide) (by decide) (by decide) rfl) hbackslash⟩

end Node

end Resugar
