import Mathlib.Algebra.Ring.Parity
import Mathlib.Data.List.Chain
import Mathlib.Data.List.Induction
import Resugar.Text.Escape
import Resugar.Text.StringLiteral

/-!
# String literals read back

A text between double quotes is written code point by code point
(`Text.escapeString`): most stand for themselves, eleven are written as escapes.
`escapeStringPoint_cases` is all that the rest uses of that.

Surrogate pairs are joined once all escapes are read. A text that spells a pair
as two code points is therefore not the value of what is written for it.
-/

namespace Resugar

open List
open CodePoint (ofChar)

namespace StringLiteral

open Text

/-- Every occurrence of one code point, by number, replaced by a text. -/
def substitute (t : Text) (n : Nat) (escape : Text) : Text :=
  t.replace fun c => if c.val = n then escape else [c]

/-- What is escaped between double quotes and how, the backslash first. -/
def escapes : List (Nat × Text) :=
  [(0x5C, "\\\\"), (0x22, "\\\""), (0x0A, "\\n"), (0x0D, "\\r"), (0x09, "\\t"),
    (0x08, "\\b"), (0x0C, "\\f"),
    (0x0B, "\\v"), (0x00, "\\x00"), (0x2028, "\\u2028"), (0x2029, "\\u2029")]

variable {c : CodePoint} {t : Text}

/-- What has no escape stays as it is. -/
theorem escapeStringPoint_of_notMem (h : c.val ∉ escapes.map Prod.fst) :
    escapeStringPoint c = [c] := by
  simp only [escapes, map_cons, map_nil, mem_cons,
    not_mem_nil, or_false, not_or] at h
  obtain ⟨hbackslash, hquote, hcontrol⟩ := h
  rw [escapeStringPoint, if_neg fun hc => hbackslash (congrArg Fin.val hc),
    if_neg fun hc => hquote (congrArg Fin.val hc)]
  simp only [hcontrol, if_false]

/-- A code point is written as itself or as an escape: one code point, or a
    letter with hexadecimal digits. It is read in one piece whatever comes after
    it. -/
theorem escapeStringPoint_cases (c : CodePoint) :
    (escapeStringPoint c = [c] ∧ c ≠ '\\' ∧ c ≠ '"' ∧
        isLineEnd c = false) ∨
      ∃ letter digits, escapeStringPoint c = ofChar '\\' :: letter :: digits ∧
        isLineEnd letter = false ∧ digits.all isHex ∧
        ∀ t, escape? (letter :: (digits ++ t)) = some (.ok [c], digits.length + 1) := by
  by_cases h : c.val ∈ escapes.map Prod.fst
  · right
    obtain ⟨n, hn⟩ := c
    simp only [escapes, map_cons, map_nil, mem_cons, not_mem_nil, or_false] at h
    rcases h with rfl | rfl | rfl | rfl | rfl | rfl | rfl | rfl | rfl | rfl | rfl <;>
      exact ⟨_, _, rfl, rfl, rfl, fun _ => rfl⟩
  · refine .inl ⟨escapeStringPoint_of_notMem h, ?_, ?_, ?_⟩
    · rintro rfl
      exact h (by decide)
    · rintro rfl
      exact h (by decide)
    · simp only [escapes, map_cons, map_nil, mem_cons, not_or] at h
      simp [isLineEnd, h]

/-- A code point is replaced by its entry in the table. -/
theorem escapeStringPoint_eq_lookup (c : CodePoint) :
    escapeStringPoint c = (escapes.lookup c.val).getD [c] := by
  by_cases h : c.val ∈ escapes.map Prod.fst
  · obtain ⟨n, hn⟩ := c
    simp only [escapes, map_cons, map_nil, mem_cons, not_mem_nil, or_false] at h
    rcases h with rfl | rfl | rfl | rfl | rfl | rfl | rfl | rfl | rfl | rfl | rfl <;> rfl
  · have hnone : escapes.lookup c.val = none :=
      lookup_eq_none_iff.2 fun e he => bne_iff_ne.2 fun hc => h (hc ▸ mem_map_of_mem he)
    rw [escapeStringPoint_of_notMem h, hnone]
    rfl

/-- Replacements made throughout a text are made in each of its code points. -/
theorem foldl_substitute (table : List (Nat × Text)) (t : Text) :
    table.foldl (fun t e => substitute t e.1 e.2) t =
      t.replace fun c => table.foldl (fun t e => substitute t e.1 e.2) [c] := by
  induction table generalizing t with
  | nil => simp [Text.replace]
  | cons e table ih =>
    rw [foldl_cons, ih]
    simp only [foldl_cons]
    rw [substitute, Text.replace, Text.replace, Text.replace, flatMap_assoc]
    congr 1
    funext c
    rw [ih (substitute [c] e.1 e.2)]
    simp [substitute, Text.replace]

/-- A text without the code points of a table stays as it is. -/
theorem foldl_substitute_of_forall_ne {table : List (Nat × Text)}
    (h : ∀ e ∈ table, ∀ c ∈ t, c.val ≠ e.1) :
    table.foldl (fun t e => substitute t e.1 e.2) t = t := by
  induction table with
  | nil => rfl
  | cons e table ih =>
    have ht : substitute t e.1 e.2 = t := by
      rw [substitute, Text.replace,
        flatMap_congr fun c hc => if_neg (h e mem_cons_self c hc)]
      exact flatMap_singleton' t
    rw [foldl_cons, ht, ih fun e he => h e (mem_cons_of_mem _ he)]

/-- Replacements do not meet where no text holds what is replaced later. -/
theorem foldl_substitute_singleton {table : List (Nat × Text)}
    (h : table.Pairwise fun e later => ∀ c ∈ e.2, c.val ≠ later.1) (c : CodePoint) :
    table.foldl (fun t e => substitute t e.1 e.2) [c] = (table.lookup c.val).getD [c] := by
  induction table with
  | nil => rfl
  | cons e table ih =>
    obtain ⟨hlater, htable⟩ := pairwise_cons.1 h
    rw [foldl_cons, lookup_cons]
    by_cases hc : c.val = e.1
    · have he : substitute [c] e.1 e.2 = e.2 := by simp [substitute, Text.replace, hc]
      rw [he, foldl_substitute_of_forall_ne hlater, hc, beq_self_eq_true]
      rfl
    · have he : substitute [c] e.1 e.2 = [c] := by simp [substitute, Text.replace, hc]
      rw [he, ih htable, beq_eq_false_iff_ne.2 hc]

/-- Only the backslash stands in an escape for something else, and it is
    replaced first. -/
theorem escapes_pairwise : escapes.Pairwise fun e later => ∀ c ∈ e.2, c.val ≠ later.1 := by
  simp [escapes, Text.ofString, ofChar, -Fin.reduceFinMk]

/-- Escaping every code point on its own is replacing one after another. -/
theorem escapeString_eq_foldl (t : Text) :
    t.escapeString = escapes.foldl (fun t e => substitute t e.1 e.2) t := by
  rw [foldl_substitute, escapeString]
  refine congrArg (Text.replace · t) (funext fun c => ?_)
  rw [foldl_substitute_singleton escapes_pairwise, escapeStringPoint_eq_lookup]

/-- Code points that are passed over leave no trace. -/
theorem unescape_length_append (skipped t : Text) :
    unescape skipped.length (skipped ++ t) = unescape 0 t := by
  induction skipped with
  | nil => rfl
  | cons c skipped ih => exact ih

/-- Reading the escapes of a written text gives the text. -/
theorem unescape_escapeString (t : Text) : unescape 0 t.escapeString = .ok t := by
  induction t with
  | nil => rfl
  | cons c t ih =>
    rw [escapeString, Text.replace, flatMap_cons, ← Text.replace, ← escapeString]
    rcases escapeStringPoint_cases c with ⟨hc, hbackslash, -, -⟩ | ⟨letter, digits, hc, -, -, hread⟩
    · rw [hc, singleton_append, unescape, if_neg hbackslash, ih]
      rfl
    · have hrest := unescape_length_append (letter :: digits) (escapeString t)
      rw [ih, length_cons, cons_append] at hrest
      rw [hc, cons_append, cons_append, unescape, if_pos rfl, hread]
      simp only [hrest]
      rfl

/-- Joining surrogate pairs leaves a text alone that has none. -/
theorem joinPairs?_getD (h : t.IsChain fun c d => ¬(c.isHighSurrogate ∧ d.isLowSurrogate)) :
    (joinPairs? t).getD t = t := by
  suffices joinPairs? t = none ∨ joinPairs? t = some t by
    rcases this with h | h <;> rw [h] <;> rfl
  fun_induction joinPairs? t with
  | case1 => exact .inr rfl
  | case2 c hhigh d t hlow =>
    -- A pair of halves is what the text does not have.
    exact absurd ⟨hhigh, hlow⟩ (isChain_cons_cons.1 h).1
  | case3 | case4 | case5 => exact .inl rfl
  | case6 c t _ _ ih =>
    rcases ih (isChain_of_isChain_cons h) with ih | ih <;> rw [ih]
    · exact .inl rfl
    · exact .inr rfl

/-- Whether the next code point is escaped once `c` is read: where `c` is a
    backslash that is not. -/
def opens (escaped : Bool) (c : CodePoint) : Bool :=
  c == '\\' && !escaped

/-- Whether every quote of a text is escaped; `escaped` says so of its first
    code point. -/
def quotesEscaped : (escaped : Bool) → Text → Bool
  | _, [] => true
  | escaped, c :: t => (c != '"' || escaped) && quotesEscaped (opens escaped c) t

/-- An odd number of backslashes escapes what follows. -/
theorem foldl_opens (t : Text) :
    t.foldl opens false ↔ Odd (t.reverse.takeWhile (· == ofChar '\\')).length := by
  induction t using reverseRecOn with
  | nil => simp
  | append_singleton t c ih =>
    rw [foldl_append, reverse_append]
    by_cases hc : c = '\\'
    · simp [opens, hc, Nat.odd_add_one, ← ih]
    · simp [opens, hc]

theorem foldl_opens_of_quotesEscaped {escaped : Bool} {before after : Text}
    (h : quotesEscaped escaped (before ++ ofChar '"' :: after)) :
    before.foldl opens escaped = true := by
  induction before generalizing escaped with
  | nil => simpa [quotesEscaped] using (Bool.and_eq_true_iff.1 h).1
  | cons c before ih => exact ih (Bool.and_eq_true_iff.1 h).2

theorem quotesEscaped_cons (hbackslash : c ≠ '\\')
    (hquote : c ≠ '"') (t : Text) :
    quotesEscaped false (c :: t) = quotesEscaped false t := by
  simp [quotesEscaped, opens, bne, beq_eq_false_iff_ne.2 hbackslash, beq_eq_false_iff_ne.2 hquote]

/-- Hexadecimal digits are neither quotes nor backslashes. -/
theorem quotesEscaped_digits {digits : Text} (h : digits.all isHex) (t : Text) :
    quotesEscaped false (digits ++ t) = quotesEscaped false t := by
  induction digits with
  | nil => rfl
  | cons d digits ih =>
    obtain ⟨hd, hdigits⟩ := Bool.and_eq_true_iff.1 h
    have hne {c : CodePoint} (hc : isHex c = false) : d ≠ c :=
      fun h => by rw [h, hc] at hd; cases hd
    exact (quotesEscaped_cons (hne rfl) (hne rfl) _).trans (ih hdigits)

theorem quotesEscaped_escapeString (t : Text) : quotesEscaped false t.escapeString := by
  induction t with
  | nil => rfl
  | cons c t ih =>
    rw [escapeString, Text.replace, flatMap_cons, ← Text.replace, ← escapeString]
    rcases escapeStringPoint_cases c with ⟨hc, hbackslash, hquote, -⟩ |
      ⟨letter, digits, hc, -, hdigits, -⟩
    · rw [hc]
      exact (quotesEscaped_cons hbackslash hquote _).trans ih
    · -- The backslash escapes the letter, and after that nothing is escaped.
      have hletter : quotesEscaped true (letter :: (digits ++ escapeString t)) := by
        simpa [quotesEscaped, opens] using (quotesEscaped_digits hdigits _).trans ih
      rw [hc]
      exact hletter

theorem isLineEnd_of_isHex (h : isHex c) : isLineEnd c = false := by
  by_contra hend
  obtain ⟨n, hn⟩ := c
  simp only [isLineEnd, Bool.not_eq_false, Bool.or_eq_true, beq_iff_eq] at hend
  rcases hend with ((rfl | rfl) | rfl) | rfl <;> cases h

/-- A written text has no line end. -/
theorem isLineEnd_escapeString (hc : c ∈ t.escapeString) : isLineEnd c = false := by
  obtain ⟨d, -, hd⟩ := mem_flatMap.1 hc
  rcases escapeStringPoint_cases d with ⟨heq, -, -, hend⟩ |
    ⟨letter, digits, heq, hletter, hdigits, -⟩
  · rw [heq, mem_singleton] at hd
    rw [hd, hend]
  · rw [heq, mem_cons, mem_cons] at hd
    rcases hd with rfl | rfl | hd
    · rfl
    · exact hletter
    · exact isLineEnd_of_isHex (all_eq_true.1 hdigits c hd)

/-- A string literal reads back. Take a text in which no first half of a
    surrogate pair comes right before a second half. What stands between the
    double quotes is the text with one escape after the other put in, the
    backslash first. It has no line end and no double quote but those after an
    odd number of backslashes, and the value of the literal is the text. -/
theorem value_escapeString {t : Text}
    (h : t.IsChain fun c d => ¬(c.isHighSurrogate ∧ d.isLowSurrogate)) :
    t.escapeString = escapes.foldl (fun t e => substitute t e.1 e.2) t ∧
      (∀ c ∈ t.escapeString,
        c.val ≠ 0x0A ∧ c.val ≠ 0x0D ∧ c.val ≠ 0x2028 ∧ c.val ≠ 0x2029) ∧
      (∀ before after, t.escapeString = before ++ ofChar '"' :: after →
        Odd (before.reverse.takeWhile (· == ofChar '\\')).length) ∧
      value (ofChar '"' :: t.escapeString ++ [ofChar '"']) = .ok t := by
  refine ⟨escapeString_eq_foldl t, fun c hc => ?_, fun before after heq => ?_, ?_⟩
  · simpa [isLineEnd, and_assoc] using isLineEnd_escapeString hc
  · have hquotes := quotesEscaped_escapeString t
    rw [heq] at hquotes
    exact (foldl_opens before).1 (foldl_opens_of_quotesEscaped hquotes)
  · have hraw : (ofChar '"' :: t.escapeString ++ [ofChar '"']).tail.dropLast =
        t.escapeString := by
      simp
    rw [value, drop_one, hraw, unescape_escapeString]
    exact congrArg Except.ok (joinPairs?_getD h)

/-- A backslash and a null before digits, a quote, a line end, and half of a
    surrogate pair read back. -/
theorem value_escapeString_half :
    value (ofChar '"' ::
      escapeString (Text.ofString "\\7\"\x0041\n" ++ [⟨0xD800, by decide⟩]) ++
      [ofChar '"']) = .ok (Text.ofString "\\7\"\x0041\n" ++ [⟨0xD800, by decide⟩]) :=
  (value_escapeString (by
    simp [Text.ofString, ofChar, CodePoint.isHighSurrogate, CodePoint.isLowSurrogate,
      -Fin.reduceFinMk])).2.2.2

end StringLiteral

end Resugar
