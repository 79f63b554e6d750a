import Mathlib.Data.List.Find
import Mathlib.Data.List.Infix
import Resugar.Text.Name

/-!
# Lexemes

The text of an expression is cut into *lexemes*: names, which keywords are
among, and punctuators (`Text.marks`). A lexeme takes all it can. White space
stands between lexemes and is none. A comment cannot be read, and neither can a
number, a string or a code point beyond ASCII. A text that stands before another
one may run into it, as `a` before `b`, or `+` before `+`.
-/

namespace Resugar

open List

namespace CodePoint

/-- The ASCII code points of a name after the first. -/
def isPlainPart (c : CodePoint) : Bool :=
  c.isNameStart || c.isAsciiDigit

/-- What begins a name is no space. -/
theorem isAsciiSpace_of_isNameStart {c : CodePoint} (h : c.isNameStart = true) :
    c.isAsciiSpace = false := by
  have hc : (65 ≤ c.val ∧ c.val ≤ 90 ∨ 97 ≤ c.val ∧ c.val ≤ 122) ∨ c.val = 95 ∨ c.val = 36 := by
    simp only [isNameStart, isAsciiLetter, Bool.or_eq_true, Bool.and_eq_true, decide_eq_true_eq,
      beq_iff_eq, Fin.ext_iff, or_assoc] at h
    exact or_assoc.2 h
  simp only [isAsciiSpace, Bool.or_eq_false_iff, Bool.and_eq_false_iff,
    decide_eq_false_iff_not, beq_eq_false_iff_ne]
  omega

end CodePoint

namespace Text

/-- Names of ASCII letters, digits, `_` and `$`, with no digit first. Reserved
    words are names too. -/
def isPlainName : Text → Bool
  | [] => false
  | c :: t => c.isNameStart && t.all CodePoint.isPlainPart

/-! ## Punctuators -/

/-- What opens a comment. -/
def commentMarks : List String :=
  ["//", "/*"]

/-- The punctuators, and what opens a comment. Of two that begin alike, the
    longer one comes first. -/
def marks : List Text :=
  ([">>>=", "...", "===", "!==", "**=", "<<=", ">>=", ">>>", "&&=", "||=", "??=", "//", "/*", "=>",
    "==", "!=", "<=", ">=", "&&", "||", "??", "?.", "++", "--", "+=", "-=", "*=", "/=", "%=", "&=",
    "|=", "^=", "<<", ">>", "**", "\x7b", "\x7d", "(", ")", "[", "]", ".", ";", ",", "<", ">", "+",
    "-", "*", "/", "%", "&", "|", "^", "!", "~", "?", ":", "="] : List String).map ofString

/-- The punctuator that a text begins with. -/
def mark? (t : Text) : Option Text :=
  marks.find? (·.isPrefixOf t)

/-- Whether a punctuator begins with another one and the code point after it. -/
def extendsMark (m : Text) (c : CodePoint) : Bool :=
  marks.any (m ++ [c]).isPrefixOf

/-- The lexemes of a text, if it can be read. -/
def lexemes (t : Text) : Option (List Text) :=
  match t with
  | [] => some []
  | c :: rest =>
    if c.isAsciiSpace then lexemes rest
    else if c.isNameStart then
      (lexemes (rest.dropWhile CodePoint.isPlainPart)).map
        ((c :: rest.takeWhile CodePoint.isPlainPart) :: ·)
    else match mark? (c :: rest) with
      | none => none
      | some m =>
        if commentMarks.any fun s => m == ofString s then none
        else (lexemes (rest.drop (m.length - 1))).map (m :: ·)
termination_by t.length
decreasing_by
  · exact Nat.lt_succ_self _
  · exact Nat.lt_succ_of_le (dropWhile_suffix _).length_le
  · exact Nat.lt_succ_of_le (rest.drop_sublist _).length_le

/-! ## Reading one lexeme -/

theorem lexemes_nil : lexemes [] = some [] := by
  rw [lexemes]

theorem lexemes_space (rest : Text) : lexemes (' ' :: rest) = lexemes rest := by
  rw [lexemes]
  exact if_pos rfl

/-- Whether a text goes on with something else than a part of a name. -/
def StopsName (t : Text) : Prop :=
  ∀ c ∈ t.head?, c.isPlainPart = false

theorem stopsName_nil : StopsName [] := by
  intro c hc
  cases hc

variable {c : CodePoint} {rest m : Text}

theorem stopsName_cons {t : Text} (h : c.isPlainPart = false) : StopsName (c :: t) := by
  intro d hd
  cases hd
  exact h

/-- A name is read whole where it stops. -/
theorem lexemes_name_append {x : Text} (hx : x.isPlainName = true) (hrest : StopsName rest) :
    lexemes (x ++ rest) = (lexemes rest).map (x :: ·) := by
  cases x with
  | nil => cases hx
  | cons c t =>
    rw [isPlainName, Bool.and_eq_true, all_eq_true] at hx
    obtain ⟨hc, ht⟩ := hx
    have hstop : rest.takeWhile CodePoint.isPlainPart = [] ∧
        rest.dropWhile CodePoint.isPlainPart = rest := by
      cases rest with
      | nil => exact ⟨rfl, rfl⟩
      | cons d rest =>
        have hd := hrest d rfl
        exact ⟨by rw [takeWhile_cons, hd]; rfl, by rw [dropWhile_cons, hd]; rfl⟩
    rw [cons_append, lexemes, CodePoint.isAsciiSpace_of_isNameStart hc, hc,
      takeWhile_append_of_pos ht, dropWhile_append_of_pos ht, hstop.1,
      hstop.2, append_nil]
    rfl

/-- What a text begins with is the same punctuator before anything that does not
    make it longer. -/
theorem mark?_append (hm : mark? m = some m) (hnext : ∀ c ∈ rest.head?, extendsMark m c = false) :
    mark? (m ++ rest) = some m := by
  rw [← hm, mark?, mark?]
  refine find?_congr fun q hq => ?_
  rw [Bool.eq_iff_iff, List.isPrefixOf_iff_prefix, List.isPrefixOf_iff_prefix]
  refine ⟨fun h => ?_, fun h => h.trans (prefix_append _ _)⟩
  rcases Nat.lt_or_ge m.length q.length with hlt | hle
  · -- a longer one would go on with the first code point after `m`
    obtain ⟨s, rfl⟩ :=
      prefix_of_prefix_length_le (prefix_append m rest) h (Nat.le_of_lt hlt)
    cases s with
    | nil => exact absurd hlt (by simp)
    | cons c s =>
      have hs : c :: s <+: rest := (prefix_append_right_inj m).1 h
      obtain ⟨u, rfl⟩ := hs
      have hc := hnext c rfl
      rw [extendsMark, any_eq_false] at hc
      refine absurd ?_ (hc _ hq)
      rw [List.isPrefixOf_iff_prefix]
      exact ⟨s, by simp⟩
  · exact prefix_of_prefix_length_le h (prefix_append _ _) hle

/-- The punctuators that can be read, as they stand alone. -/
def IsMark (m : Text) : Prop :=
  mark? m = some m ∧ (commentMarks.any fun s => m == ofString s) = false ∧
    m.head?.any (fun c => !c.isAsciiSpace && !c.isNameStart) = true

instance (m : Text) : Decidable (IsMark m) :=
  inferInstanceAs (Decidable (_ ∧ _ ∧ _))

/-- A punctuator is read as such where nothing follows that makes it longer. -/
theorem lexemes_mark_append (hm : IsMark m) (hnext : ∀ c ∈ rest.head?, extendsMark m c = false) :
    lexemes (m ++ rest) = (lexemes rest).map (m :: ·) := by
  obtain ⟨hmark, hcomment, hfirst⟩ := hm
  cases m with
  | nil => cases hfirst
  | cons c t =>
    simp only [head?_cons, Option.any_some, Bool.and_eq_true, Bool.not_eq_true'] at hfirst
    rw [cons_append, lexemes, hfirst.1, hfirst.2, ← cons_append, mark?_append hmark hnext]
    simp only [Bool.false_eq_true, if_false, hcomment, length_cons,
      Nat.add_sub_cancel, drop_left]

/-- No punctuator holds a part of a name or a blank. -/
theorem isPlainPart_of_mem_marks (hm : m ∈ marks) (hc : c ∈ m) :
    c.isPlainPart = false ∧ c.isAsciiSpace = false := by
  have hall : (marks.all fun q => q.all fun d => !d.isPlainPart && !d.isAsciiSpace) = true := by
    decide
  simpa using all_eq_true.1 (all_eq_true.1 hall m hm) c hc

/-- Neither a part of a name nor a space makes a punctuator longer. -/
theorem extendsMark_eq_false (h : c.isPlainPart = true ∨ c.isAsciiSpace = true) (m : Text) :
    extendsMark m c = false := by
  rw [extendsMark, any_eq_false]
  intro q hq hp
  rw [List.isPrefixOf_iff_prefix] at hp
  obtain ⟨hpart, hspace⟩ := isPlainPart_of_mem_marks hq (hp.subset (by simp : c ∈ m ++ [c]))
  rcases h with h | h
  · rw [hpart] at h
    cases h
  · rw [hspace] at h
    cases h

/-! ## Reading pieces of text -/

/-- Where no name goes on after it, a text has the given lexemes. -/
def Lexes (t : Text) (ls : List Text) : Prop :=
  ∀ rest, StopsName rest → lexemes (t ++ rest) = (lexemes rest).map (ls ++ ·)

variable {t u : Text} {ls ms : List Text}

theorem Lexes.lexemes_eq (h : Lexes t ls) : lexemes t = some ls := by
  have := h [] stopsName_nil
  rwa [append_nil, lexemes_nil, Option.map_some, append_nil] at this

theorem lexes_name {x : Text} (hx : x.isPlainName = true) : Lexes x [x] :=
  fun _ hrest => lexemes_name_append hx hrest

/-- The lexemes of a text and of the text after it come one after the other, if
    that does not go on with a name. -/
theorem Lexes.append (ht : Lexes t ls) (hu : Lexes u ms)
    (hstop : ∀ rest, StopsName rest → StopsName (u ++ rest)) : Lexes (t ++ u) (ls ++ ms) := by
  intro rest hrest
  rw [append_assoc, ht _ (hstop rest hrest), hu rest hrest, Option.map_map]
  congr 1
  funext l
  exact (append_assoc _ _ _).symm

/-- A punctuator before a text that does not make it longer. -/
theorem Lexes.mark_append (hm : IsMark m) (hu : Lexes u ms) (hne : u ≠ [])
    (hnext : ∀ c ∈ u.head?, extendsMark m c = false) : Lexes (m ++ u) (m :: ms) := by
  intro rest hrest
  rw [append_assoc, lexemes_mark_append hm, hu rest hrest, Option.map_map]
  · rfl
  · cases u with
    | nil => exact absurd rfl hne
    | cons c u => exact hnext

/-- The lexemes of operators: names and punctuators. -/
def IsOperator (l : Text) : Prop :=
  l.isPlainName = true ∨ IsMark l

instance (l : Text) : Decidable (IsOperator l) :=
  inferInstanceAs (Decidable (_ ∨ _))

/-- An operator with a blank after it. -/
theorem Lexes.blank {l : Text} (hl : IsOperator l) (hu : Lexes u ms) :
    Lexes (l ++ CodePoint.ofChar ' ' :: u) (l :: ms) := by
  intro rest hrest
  have hblank : lexemes (' ' :: (u ++ rest)) = (lexemes rest).map (ms ++ ·) := by
    rw [lexemes_space, hu rest hrest]
  rw [append_assoc, cons_append]
  rcases hl with hl | hl
  · rw [lexemes_name_append hl (stopsName_cons rfl), hblank, Option.map_map]
    rfl
  · rw [lexemes_mark_append hl, hblank, Option.map_map]
    · rfl
    · intro c hc
      cases hc
      exact extendsMark_eq_false (.inr rfl) l

/-- An operator with blanks around it. -/
theorem Lexes.spaced {l : Text} (ht : Lexes t ls) (hl : IsOperator l) (hu : Lexes u ms) :
    Lexes (t ++ CodePoint.ofChar ' ' :: (l ++ CodePoint.ofChar ' ' :: u)) (ls ++ l :: ms) := by
  refine ht.append ?_ fun rest _ => stopsName_cons rfl
  intro rest hrest
  rw [cons_append, lexemes_space]
  exact hu.blank hl rest hrest

/-- The punctuators that are read as such before anything. -/
def IsClosedMark (m : Text) : Prop :=
  IsMark m ∧ ∀ q ∈ marks, m.isPrefixOf q = true → q = m

instance (m : Text) : Decidable (IsClosedMark m) :=
  inferInstanceAs (Decidable (_ ∧ _))

/-- A punctuator that is always read as such begins no other one. -/
theorem IsClosedMark.extendsMark_eq_false (h : IsClosedMark m) (c : CodePoint) :
    extendsMark m c = false := by
  rw [extendsMark, any_eq_false]
  intro q hq hp
  rw [List.isPrefixOf_iff_prefix] at hp
  obtain rfl := h.2 q hq (List.isPrefixOf_iff_prefix.2 ((prefix_append m [c]).trans hp))
  exact absurd hp.length_le (by simp)

theorem IsClosedMark.lexes (h : IsClosedMark m) : Lexes m [m] :=
  fun _ _ => lexemes_mark_append h.1 fun c _ => h.extendsMark_eq_false c

theorem IsMark.stopsName (h : IsMark m) (rest : Text) : StopsName (m ++ rest) := by
  cases m with
  | nil => cases h.2.2
  | cons c m =>
    exact stopsName_cons (isPlainPart_of_mem_marks (mem_of_find?_eq_some h.1)
      (mem_cons_self ..)).1

/-- A text with punctuators around it. -/
theorem Lexes.enclosed (ht : Lexes t ls) (m m' : Text) (hm : IsClosedMark m)
    (hm' : IsClosedMark m') : Lexes (m ++ (t ++ m')) (m :: (ls ++ [m'])) := by
  have hlast : Lexes (t ++ m') (ls ++ [m']) :=
    ht.append hm'.lexes fun rest _ => hm'.1.stopsName rest
  intro rest hrest
  rw [append_assoc, lexemes_mark_append hm.1 fun c _ => hm.extendsMark_eq_false c,
    hlast rest hrest, Option.map_map]
  rfl

end Text

end Resugar
