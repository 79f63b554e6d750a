import Mathlib.Data.List.Infix
import Resugar.Markup.Call
import Resugar.Text.StringLiteral

/-!
# The names of elements as texts

Whether a tag can be the name of an element is decided by its text, less the
quotes around it (`Text.unquote`). Few code points are left after that: those of
names, `-`, and the marks between names (`CodePoint.isTagPart`). So a single
code point that is *foreign* to tags refuses a text wherever it stands, and so
does a beginning with which no name begins.
-/

namespace Resugar

open List
open CodePoint (ofChar)

namespace CodePoint

/-- The code points of the names of elements. -/
def isTagPart (c : CodePoint) : Bool :=
  c.isNamePart || c == '-' || c == '.' || c == ':'

/-- The code points that no name of an element holds, quoted or not. -/
def isForeign (c : CodePoint) : Bool :=
  !(c.isTagPart || c == '\n' || Text.isQuote c)

variable {c : CodePoint}

/-- The code points that begin a name are letters in ASCII, and two more. -/
theorem isNameStart_cases (h : c.isNameStart = true) :
    (c.isAsciiLetter = true ∧ c.val < 128) ∨ c = '_' ∨ c = '$' := by
  rw [isNameStart, Bool.or_eq_true, Bool.or_eq_true, beq_iff_eq, beq_iff_eq, or_assoc] at h
  refine h.imp_left fun hletter => ⟨hletter, ?_⟩
  simp only [isAsciiLetter, Bool.or_eq_true, Bool.and_eq_true, decide_eq_true_eq] at hletter
  omega

theorem isNamePart_of_isNameStart (h : c.isNameStart = true) : c.isNamePart = true := by
  obtain ⟨hletter, hascii⟩ | rfl | rfl := isNameStart_cases h
  · rw [isNamePart, isWord, if_pos hascii, hletter]
    rfl
  · rfl
  · rfl

/-- Letters and numerals are no halves of surrogate pairs. -/
theorem not_surrogate_of_inRanges
    (h : (c.inRanges letterRanges || c.inRanges numeralRanges) = true) :
    c.val < 0xD800 ∨ 0xDFFF < c.val := by
  have hranges : (letterRanges ++ numeralRanges).all
      (fun r => r.2 < 0xD800 || 0xDFFF < r.1) = true := by
    decide +kernel
  rw [inRanges, inRanges, ← any_append] at h
  obtain ⟨r, hr, h⟩ := any_eq_true.1 h
  have hr := all_eq_true.1 hranges r hr
  simp only [Bool.and_eq_true, Bool.or_eq_true, decide_eq_true_eq] at h hr
  omega

/-- The code points of names are neither surrogates nor backslashes. -/
theorem not_surrogate_of_isTagPart (h : c.isTagPart = true) :
    (c.val < 0xD800 ∨ 0xDFFF < c.val) ∧ c.val ≠ 0x5C := by
  rw [isTagPart, isNamePart, Bool.or_eq_true, Bool.or_eq_true, Bool.or_eq_true, Bool.or_eq_true,
    beq_iff_eq, beq_iff_eq, beq_iff_eq, beq_iff_eq] at h
  obtain (((h | rfl) | rfl) | rfl) | rfl := h
  · rw [isWord] at h
    split at h
    · simp only [isAsciiLetter, isAsciiDigit, Bool.or_eq_true, Bool.and_eq_true,
        decide_eq_true_eq, beq_iff_eq] at h
      omega
    · exact ⟨not_surrogate_of_inRanges h, by omega⟩
  all_goals decide

end CodePoint

namespace Text

variable {t u : Text} {c q : CodePoint}

/-! ## Names of elements -/

/-- The rest of the name of an element is made of such code points. -/
theorem isTagPart_of_continuesTag {afterMark : Bool} (h : continuesTag afterMark t = true) :
    ∀ c ∈ t, c.isTagPart = true := by
  fun_induction continuesTag afterMark t with
  | case1 => exact forall_mem_nil _
  | case2 c t ih =>
    obtain ⟨hc, ht⟩ := Bool.and_eq_true_iff.1 h
    refine forall_mem_cons.2 ⟨?_, ih ht⟩
    rw [CodePoint.isTagPart, CodePoint.isNamePart_of_isNameStart hc]
    rfl
  | case3 c t hc ih =>
    refine forall_mem_cons.2 ⟨?_, ih h⟩
    rw [CodePoint.isTagPart, hc]
    rfl
  | case4 c t hc ih =>
    obtain ⟨hmark, ht⟩ := Bool.and_eq_true_iff.1 h
    refine forall_mem_cons.2 ⟨?_, ih ht⟩
    rw [CodePoint.isTagPart, Bool.or_assoc, hmark, Bool.or_true]

/-- A text ends in a line feed that is dropped, or stays. -/
theorem dropFinalNewline_cases (t : Text) :
    t.dropFinalNewline = t ∨ t = t.dropFinalNewline ++ [ofChar '\n'] := by
  unfold dropFinalNewline
  split
  · rename_i h
    exact .inr (dropLast_append_getLast? _ h).symm
  · exact .inl rfl

/-- The name of an element begins like a name and holds its parts, and possibly
    a line feed after them. -/
theorem isTagName_cases (h : t.isTagName = true) :
    (∃ c ∈ t.head?, c.isNameStart = true) ∧ ∀ c ∈ t, c.isTagPart = true ∨
      c = '\n' := by
  rw [isTagName] at h
  have hparts := isTagPart_of_continuesTag h
  have hhead : ∃ c ∈ t.dropFinalNewline.head?, c.isNameStart = true := by
    cases hdrop : t.dropFinalNewline with
    | nil =>
      rw [hdrop] at h
      cases h
    | cons c rest =>
      rw [hdrop, continuesTag] at h
      exact ⟨c, rfl, (Bool.and_eq_true_iff.1 h).1⟩
  obtain hdrop | hdrop := t.dropFinalNewline_cases
  · rw [hdrop] at hhead hparts
    exact ⟨hhead, fun c hc => .inl (hparts c hc)⟩
  · rw [hdrop]
    obtain ⟨c, hc, hstart⟩ := hhead
    refine ⟨⟨c, ?_, hstart⟩, fun c hc => ?_⟩
    · rw [head?_append, Option.mem_def.1 hc]
      rfl
    · obtain hc | hc := mem_append.1 hc
      · exact .inl (hparts c hc)
      · exact .inr (mem_singleton.1 hc)

/-! ## Quotes -/

theorem ne_of_isQuote (hq : isQuote q = true) (hc : isQuote c = false) : q ≠ c := by
  rintro rfl
  rw [hc] at hq
  cases hq

/-- A quote at the end is taken away, or before a final line feed. -/
theorem dropFinalQuote_cases (t : Text) :
    t.dropFinalQuote = t ∨ ∃ u q, isQuote q = true ∧
      (t = u ++ [q] ∧ t.dropFinalQuote = u ∨
        t = u ++ [q, '\n'] ∧ t.dropFinalQuote = u ++ [ofChar '\n']) := by
  rw [dropFinalQuote]
  split
  · rename_i c rest h
    have ht : t = rest.reverse ++ [c] := by rw [← reverse_reverse t, h, reverse_cons]
    split
    · rename_i hc
      exact .inr ⟨rest.reverse, c, hc, .inl ⟨ht, rfl⟩⟩
    · split
      · rename_i q rest'
        split
        · rename_i hq
          obtain ⟨hc, hq⟩ := Bool.and_eq_true_iff.1 hq
          obtain rfl := eq_of_beq hc
          exact .inr ⟨rest'.reverse, q, hq, .inr ⟨by rw [ht]; simp, by simp⟩⟩
        · exact .inl rfl
      · exact .inl rfl
  · exact .inl rfl

theorem unquote_cons (c : CodePoint) (t : Text) :
    unquote (c :: t) = dropFinalQuote (if isQuote c then t else c :: t) := rfl

theorem unquote_eq_self (h : ∀ c ∈ t, isQuote c = false) : t.unquote = t := by
  have hdrop : t.dropFinalQuote = t := by
    obtain hdrop | ⟨u, q, hq, ⟨rfl, -⟩ | ⟨rfl, -⟩⟩ := t.dropFinalQuote_cases
    · exact hdrop
    · exact absurd rfl (ne_of_isQuote hq (h q (by simp)))
    · exact absurd rfl (ne_of_isQuote hq (h q (by simp)))
  cases t with
  | nil => rfl
  | cons c t => rw [unquote_cons, h c mem_cons_self, if_neg Bool.false_ne_true, hdrop]

/-- Quotes around a text are taken off. -/
theorem unquote_quoted (hq : isQuote q = true) (body : Text) :
    unquote (q :: (body ++ [q])) = body := by
  rw [unquote_cons, if_pos hq, dropFinalQuote, reverse_append,
    reverse_singleton, singleton_append]
  dsimp only
  rw [if_pos hq, reverse_reverse]

theorem mem_dropFinalQuote (hc : c ∈ t) (hquote : isQuote c = false) : c ∈ t.dropFinalQuote := by
  obtain hdrop | ⟨u, q, hq, ⟨rfl, hdrop⟩ | ⟨rfl, hdrop⟩⟩ := t.dropFinalQuote_cases
  · rwa [hdrop]
  · rw [hdrop]
    simpa [(ne_of_isQuote hq hquote).symm] using hc
  · rw [hdrop]
    simpa [(ne_of_isQuote hq hquote).symm] using hc

theorem mem_unquote (hc : c ∈ t) (hquote : isQuote c = false) : c ∈ t.unquote := by
  cases t with
  | nil => cases hc
  | cons d t =>
    rw [unquote_cons]
    refine mem_dropFinalQuote ?_ hquote
    split
    · rename_i hd
      exact (mem_cons.1 hc).resolve_left (ne_of_isQuote hd hquote).symm
    · exact hc

theorem head?_unquote (hquote : isQuote c = false) (t : Text) :
    (unquote (c :: t)).head? = some c := by
  rw [unquote_cons, hquote, if_neg Bool.false_ne_true]
  obtain hdrop | ⟨u, q, hq, ⟨ht, hdrop⟩ | ⟨ht, hdrop⟩⟩ := dropFinalQuote_cases (c :: t)
  · rw [hdrop]
    rfl
  · rw [hdrop]
    cases u with
    | nil => exact absurd (cons.inj ht).1.symm (ne_of_isQuote hq hquote)
    | cons d u => rw [head?_cons, (cons.inj ht).1]
  · rw [hdrop]
    cases u with
    | nil => exact absurd (cons.inj ht).1.symm (ne_of_isQuote hq hquote)
    | cons d u => rw [cons_append, head?_cons, (cons.inj ht).1]

/-! ## Texts that are no names of elements -/

/-- A code point that is foreign to names refuses a text. -/
theorem isTagName_unquote_of_isForeign (hc : c ∈ t) (hforeign : c.isForeign = true) :
    t.unquote.isTagName = false := by
  simp only [CodePoint.isForeign, Bool.not_eq_true', Bool.or_eq_false_iff,
    beq_eq_false_iff_ne] at hforeign
  obtain ⟨⟨hpart, hnewline⟩, hquote⟩ := hforeign
  refine Bool.eq_false_iff.2 fun h => ?_
  obtain hc | hc := (isTagName_cases h).2 c (mem_unquote hc hquote)
  · rw [hpart] at hc
    cases hc
  · exact hnewline hc

/-- A beginning that no name has refuses a text. -/
theorem isTagName_unquote_of_head (hc : c ∈ t.head?) (hquote : isQuote c = false)
    (hstart : c.isNameStart = false) : t.unquote.isTagName = false := by
  obtain ⟨t, rfl⟩ := head?_eq_some_iff.1 hc
  refine Bool.eq_false_iff.2 fun h => ?_
  obtain ⟨d, hd, hname⟩ := (isTagName_cases h).1
  rw [head?_unquote hquote] at hd
  cases hd
  rw [hstart] at hname
  cases hname

/-- A quote within a text stays, and refuses it. -/
theorem isTagName_unquote_of_quoted (hq : isQuote q = true) (body : Text) {tail : Text}
    (htail : ∀ c ∈ tail, isQuote c = false) (hdot : ofChar '.' ∈ tail.head?) :
    (unquote (q :: (body ++ [q]) ++ tail)).isTagName = false := by
  have hmem : q ∈ unquote (q :: (body ++ [q]) ++ tail) := by
    rw [cons_append, unquote_cons, if_pos hq]
    have hsuffix : tail <:+ body ++ [q] ++ tail := suffix_append _ _
    -- what is taken away at the end would be in `tail`, which has no quotes
    have hlast {u v : Text} {r : CodePoint} (hr : isQuote r = true) (hv : ofChar '.' ∉ v)
        (h : body ++ [q] ++ tail = u ++ r :: v) : False := by
      rw [h] at hsuffix
      obtain hv' | hv' := suffix_or_suffix_of_suffix hsuffix (suffix_append u (r :: v))
      · obtain ⟨_ | ⟨_, w⟩, hw⟩ := hv'
        · obtain rfl : tail = r :: v := hw
          cases hdot
          exact absurd hr (by decide)
        · exact hv ((cons.inj hw).2 ▸ mem_append_right w (mem_of_mem_head? hdot))
      · exact ne_of_isQuote hr (htail r (hv'.subset mem_cons_self)) rfl
    obtain hdrop | ⟨u, r, hr, ⟨ht, -⟩ | ⟨ht, -⟩⟩ := dropFinalQuote_cases (body ++ [q] ++ tail)
    · rw [hdrop]
      simp
    · exact (hlast hr (not_mem_nil) ht).elim
    · exact (hlast hr (by decide) ht).elim
  refine Bool.eq_false_iff.2 fun h => ?_
  obtain hpart | rfl := (isTagName_cases h).2 q hmem
  · rw [isQuote, Bool.or_eq_true, beq_iff_eq, beq_iff_eq] at hq
    obtain rfl | rfl := hq <;> exact absurd hpart (by decide)
  · exact absurd hq (by decide)

end Text

/-! ## Strings -/

namespace StringLiteral

variable {t : Text}

theorem unescape_eq_self (h : ∀ c ∈ t, c ≠ '\\') : unescape 0 t = .ok t := by
  induction t with
  | nil => rfl
  | cons c t ih =>
    obtain ⟨hc, ht⟩ := forall_mem_cons.1 h
    rw [unescape, if_neg hc, ih ht]
    rfl

theorem joinPairs?_eq_self (h : ∀ c ∈ t, c.val < 0xD800 ∨ 0xDFFF < c.val) :
    joinPairs? t = some t := by
  induction t with
  | nil => rw [joinPairs?]
  | cons c t ih =>
    obtain ⟨hc, ht⟩ := forall_mem_cons.1 h
    have hhigh : c.isHighSurrogate = false := by
      simp [CodePoint.isHighSurrogate]
      omega
    have hlow : c.isLowSurrogate = false := by
      simp [CodePoint.isLowSurrogate]
      omega
    rw [joinPairs?.eq_def]
    simp [hhigh, hlow, ih ht]

/-- A literal with a name between its quotes has the name as its value. -/
theorem value_of_isTagName (h : t.isTagName = true) (q : CodePoint) :
    value (q :: (t ++ [q])) = .ok t := by
  -- no backslash, so nothing is unescaped, and no surrogates, so no pairs are joined
  have hpoint (c : CodePoint) (hc : c ∈ t) : (c.val < 0xD800 ∨ 0xDFFF < c.val) ∧ c.val ≠ 0x5C := by
    obtain hpart | rfl := (Text.isTagName_cases h).2 c hc
    · exact CodePoint.not_surrogate_of_isTagPart hpart
    · decide
  rw [value, drop_one, tail_cons, dropLast_concat,
    unescape_eq_self fun c hc hbackslash => (hpoint c hc).2 (by rw [hbackslash]; rfl)]
  change Except.ok ((joinPairs? t).getD t) = .ok t
  rw [joinPairs?_eq_self fun c hc => (hpoint c hc).1, Option.getD_some]

end StringLiteral

end Resugar
