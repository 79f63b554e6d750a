import Resugar.Module.Load
import Resugar.Printer.Print
import Resugar.Proofs.Text.StringLiteral

/-!
# The texts of imports

Two imports are written alike only if they import the same module, since no
quote inside a string comes after a blank (`Text.append_quoted_inj`). Of one
module there can be two imports, one of its default export and one of all of it.
They are written alike if the name of the first one is `* as` and the name of
the second one (`Import.Mimics`), which may be a name that the settings fix.
-/

namespace Resugar

open List
open CodePoint (ofChar)

namespace Text

theorem escapeString_injective : Function.Injective escapeString := by
  intro s t h
  have hs := StringLiteral.unescape_escapeString s
  rw [h, StringLiteral.unescape_escapeString] at hs
  exact (Except.ok.inj hs).symm

/-- A text between double quotes. -/
def doubleQuoted (t : Text) : Text :=
  ofChar '"' :: t.escapeString ++ [ofChar '"']

theorem doubleQuoted_injective : Function.Injective doubleQuoted := by
  intro s t h
  exact escapeString_injective (append_cancel_right (cons.inj h).2)

/-- A string does not end with another one that comes after a blank. -/
theorem eq_nil_of_quoted_eq {s t c : Text}
    (h : ofChar ' ' :: s.doubleQuoted = c ++ ofChar ' ' :: t.doubleQuoted) :
    c = [] := by
  rcases c with _ | ⟨blank, _ | ⟨first, c⟩⟩
  · rfl
  · -- a string begins with a quote
    have hfirst := (cons.inj (cons.inj h).2).1
    exact absurd hfirst (by decide)
  · have hrest : s.escapeString ++ [ofChar '"'] = (c ++ [ofChar ' ']) ++
        ofChar '"' :: t.escapeString ++ [ofChar '"'] := by
      simpa [doubleQuoted] using (cons.inj (cons.inj h).2).2
    -- the quote that the other string begins with is not escaped
    have hquotes := StringLiteral.quotesEscaped_escapeString s
    rw [append_cancel_right hrest] at hquotes
    have hopens := StringLiteral.foldl_opens_of_quotesEscaped hquotes
    rw [foldl_append] at hopens
    exact absurd hopens (by simp [StringLiteral.opens, ofChar])

/-- What comes before the string at the end of a text, and the string. -/
theorem append_quoted_inj {a b s t : Text}
    (h : a ++ ofChar ' ' :: s.doubleQuoted = b ++
      ofChar ' ' :: t.doubleQuoted) : a = b ∧ s = t := by
  suffices hab : a = b by
    subst hab
    exact ⟨rfl, doubleQuoted_injective (cons.inj (append_cancel_left h)).2⟩
  rcases append_eq_append_iff.1 h with ⟨c, rfl, hc⟩ | ⟨c, rfl, hc⟩
  · rw [eq_nil_of_quoted_eq hc, append_nil]
  · rw [eq_nil_of_quoted_eq hc, append_nil]

end Text

namespace Import

variable {i j : Import}

/-- What is written between `import` and `from`. -/
def clause (i : Import) : Text :=
  match i.kind with
  | .default => i.name
  | .namespaced => "* as " ++ i.name

/-- The text of an import: its clause, and its source between quotes. -/
theorem print_declaration (i : Import) :
    i.declaration.print = .ok (Text.ofString "import " ++ (i.clause ++ Text.ofString " from") ++
      ofChar ' ' :: i.source.doubleQuoted ++ Text.ofString ";") := by
  have hprint : i.declaration.print =
      .ok (Text.concat ["import ", Text.join ", " [i.clause] ++ " from ",
        Text.concat ["\"", i.source.escapeString, "\""], ";"]) := by
    obtain ⟨source, kind, binding, name⟩ := i
    cases kind with
    | default => rfl
    | namespaced =>
      have hclause : Text.concat ["* as ", name] = "* as " ++ name := by
        simp [Text.concat]
      rw [clause, ← hclause]
      rfl
  rw [hprint]
  simp [Text.concat, Text.join, Text.doubleQuoted, Text.ofString]

/-- The import of a default export is written like one of a whole module. -/
structure Mimics (i j : Import) : Prop where
  default : i.kind = .default
  namespaced : j.kind = .namespaced
  source : i.source = j.source
  name : i.name = "* as " ++ j.name

/-- Different imports have the same text only if one mimics the other. -/
theorem print_eq_iff (hne : ¬(i.source = j.source ∧ i.kind = j.kind)) :
    i.declaration.print = j.declaration.print ↔ i.Mimics j ∨ j.Mimics i := by
  have htext : i.declaration.print = j.declaration.print ↔
      i.clause = j.clause ∧ i.source = j.source := by
    rw [print_declaration, print_declaration]
    constructor
    · intro h
      have h := append_cancel_right (Except.ok.inj h)
      obtain ⟨hclause, hsource⟩ := Text.append_quoted_inj h
      exact ⟨append_cancel_right (append_cancel_left hclause), hsource⟩
    · rintro ⟨hclause, hsource⟩
      rw [hclause, hsource]
  rw [htext]
  constructor
  · rintro ⟨hclause, hsource⟩
    rcases hi : i.kind with _ | _ <;> rcases hj : j.kind with _ |
      _ <;> simp only [clause, hi, hj] at hclause
    · exact absurd ⟨hsource, hi.trans hj.symm⟩ hne
    · exact .inl ⟨hi, hj, hsource, hclause⟩
    · exact .inr ⟨hj, hi, hsource.symm, hclause.symm⟩
    · exact absurd ⟨hsource, hi.trans hj.symm⟩ hne
  · rintro (h | h)
    · exact ⟨by simp only [clause, h.default, h.namespaced, h.name], h.source⟩
    · exact ⟨by simp only [clause, h.default, h.namespaced, h.name], h.source.symm⟩

end Import

end Resugar
