import Mathlib.Data.List.Induction
import Mathlib.Data.Nat.Digits.Defs
import Resugar.Number.Literal
import Resugar.Proofs.Results

/-!
# Integer literals

An integer is spelled in base ten, or in another radix that a mark after a
leading zero announces. A leading zero without a mark announces radix eight if
it can, and base ten otherwise. `IntegerLiteral` says how integers are spelled,
and with which value; nothing there is about how a literal is read.
-/

namespace Resugar

open List
open CodePoint (ofChar)

namespace Number

/-! ## Spellings -/

/-- A code point is a digit of a radix; from ten on, a letter of either case. -/
def IsDigit (radix : Nat) (c : CodePoint) (d : Nat) : Prop :=
  d < radix ∧ (d < 10 ∧ c.val = 48 + d ∨ 10 ≤ d ∧ (c.val = 65 + (d - 10) ∨ c.val = 97 + (d - 10)))

instance (radix : Nat) (c : CodePoint) (d : Nat) : Decidable (IsDigit radix c d) :=
  inferInstanceAs (Decidable (_ ∧ _))

/-- Digits spell a number in a radix, the most significant first. -/
def Spells (radix : Nat) (t : Text) (n : Nat) : Prop :=
  ∃ ds, List.Forall₂ (IsDigit radix) t ds ∧ Nat.ofDigits radix ds.reverse = n

/-- The second text is the first with underscores between code points. -/
inductive Separated : Text → Text → Prop
  | single {c : CodePoint} : Separated [c] [c]
  | cons {c : CodePoint} {t s : Text} (k : Nat) :
    Separated t s → Separated (c :: t) (c :: (replicate k (ofChar '_') ++ s))

/-- The marks that announce a radix after a leading zero. -/
def marks : List (Char × Nat) :=
  [('x', 16), ('X', 16), ('o', 8), ('O', 8), ('b', 2), ('B', 2)]

/-- What may stand at the end of an integer. -/
def suffixes : List Text :=
  [[], ['n']]

/-- The literals that spell integers, each with its value. -/
inductive IntegerLiteral : Text → Nat → Prop
  /-- Digits after a mark, with underscores between them: `0xFF`, `0B1_000n`. -/
  | marked {mark : Char} {radix n : Nat} {t s suffix : Text} :
    (mark, radix) ∈ marks → Spells radix t n → Separated t s → suffix ∈ suffixes →
      IntegerLiteral (ofChar '0' :: ofChar mark :: (s ++ suffix)) n
  /-- Digits in base ten without a leading zero, or the zero alone: `0`,
      `1_000n`. -/
  | decimal {n : Nat} {t s suffix : Text} :
    Spells 10 t n → t.length ≤ 4300 → t = [ofChar '0'] ∨
      t.head? ≠ some (ofChar '0') → Separated t s → suffix ∈ suffixes →
      IntegerLiteral (s ++ suffix) n
  /-- Octal digits after a leading zero: `017`. -/
  | octal {n : Nat} {t : Text} : Spells 8 t n → IntegerLiteral (ofChar '0' :: t) n
  /-- Digits after a leading zero that cannot all be octal: `018`. -/
  | zeroLed {n : Nat} {t : Text} :
    Spells 10 t n → ofChar '8' ∈ t ∨ ofChar '9' ∈ t →
      (ofChar '0' :: t).length ≤ 4300 → IntegerLiteral (ofChar '0' :: t) n

/-! ## Digits -/

section Digits

variable {radix n d : Nat} {c : CodePoint} {t s : Text}

/-- The code points of digits: ASCII digits, and six letters of either case. -/
theorem IsDigit.val_cases (h : IsDigit radix c d) (hradix : radix ≤ 16) :
    48 ≤ c.val ∧ c.val ≤ 57 ∨ 65 ≤ c.val ∧ c.val ≤ 70 ∨ 97 ≤ c.val ∧ c.val ≤ 102 := by
  obtain ⟨hd, ⟨h10, hc⟩ | ⟨h10, hc | hc⟩⟩ := h <;> omega

/-- Digits are read as such in their radix. -/
theorem IsDigit.digitBelow?_eq (h : IsDigit radix c d) (hradix : radix ≤ 16) :
    digitBelow? radix c = some d := by
  have hvalue : c.hexValue? = some d := by
    obtain ⟨hd, ⟨h10, hc⟩ | ⟨h10, hc | hc⟩⟩ := h
    · rw [CodePoint.hexValue?, if_pos (by omega), hc, Nat.add_sub_cancel_left]
    · rw [CodePoint.hexValue?, if_neg (by omega), if_pos (by omega)]
      exact congrArg some (by omega)
    · rw [CodePoint.hexValue?, if_neg (by omega), if_neg (by omega), if_pos (by omega)]
      exact congrArg some (by omega)
  rw [digitBelow?, hvalue]
  simp [h.1]

theorem IsDigit.decimalValue?_eq (h : IsDigit 10 c d) : c.decimalValue? = some d := by
  have hc : c.val = 48 + d := by
    obtain ⟨hd, ⟨h10, hc⟩ | ⟨h10, hc⟩⟩ := h
    · exact hc
    · omega
  have hd := h.1
  have hfind : CodePoint.decimalZeros.find? (fun z => z ≤ c.val && c.val < z + 10) = some 48 :=
    find?_cons_of_pos (by simp; omega)
  rw [CodePoint.decimalValue?, hfind, Option.map_some, hc, Nat.add_sub_cancel_left]

/-- The number with some digits: the sum of values times powers. -/
theorem ofDigits_eq (radix : Nat) (ds : List Nat) :
    ofDigits radix ds = Nat.ofDigits radix ds.reverse := by
  induction ds using reverseRecOn with
  | nil => rfl
  | append_singleton ds d ih =>
    rw [ofDigits, foldl_append, ← ofDigits, ih, reverse_append, reverse_singleton,
      singleton_append, Nat.ofDigits_cons]
    simp [Nat.mul_comm, Nat.add_comm]

theorem mapM_eq_some {f : CodePoint → Option Nat} {ds : List Nat}
    (h : List.Forall₂ (fun c d => f c = some d) t ds) : t.mapM f = some ds := by
  induction h with
  | nil => rfl
  | cons hc _ ih => simp [mapM_cons, hc, ih]

/-- Digits are read as the number that they spell in a radix. -/
theorem readRadix?_eq (h : Spells radix t n) (hradix : radix ≤ 16) (ht : t ≠ []) :
    readRadix? radix t = some n := by
  obtain ⟨ds, hds, rfl⟩ := h
  have hvalues : t.mapM (digitBelow? radix) = some ds :=
    mapM_eq_some (hds.imp fun _ _ h => h.digitBelow?_eq hradix)
  rw [readRadix?, if_neg (by simpa using ht), hvalues, Option.map_some, ofDigits_eq]

theorem readDecimal?_eq (h : Spells 10 t n) (ht : t.length ≤ maxDigits) :
    readDecimal? t = some n := by
  obtain ⟨ds, hds, rfl⟩ := h
  have hvalues : t.mapM CodePoint.decimalValue? = some ds :=
    mapM_eq_some (hds.imp fun _ _ h => h.decimalValue?_eq)
  rw [readDecimal?, if_neg (Nat.not_lt.2 ht), hvalues, Option.map_some, ofDigits_eq]

theorem Spells.isDigit (h : Spells radix t n) (hc : c ∈ t) : ∃ d, IsDigit radix c d := by
  obtain ⟨ds, hds, -⟩ := h
  obtain ⟨d, -, hd⟩ := exists_of_forall₂ hds.flip hc
  exact ⟨d, hd⟩

/-- A leading zero adds nothing. -/
theorem Spells.cons_zero (h : Spells radix t n) (hradix : 0 < radix) :
    Spells radix ('0' :: t) n := by
  obtain ⟨ds, hds, rfl⟩ := h
  refine ⟨0 :: ds, .cons ⟨hradix, .inl ⟨by decide, rfl⟩⟩ hds, ?_⟩
  rw [reverse_cons, Nat.ofDigits_append, Nat.ofDigits_singleton, Nat.mul_zero, Nat.add_zero]

end Digits

/-! ## What is read -/

section Reading

variable {radix n : Nat} {c : CodePoint} {t s suffix : Text}

theorem Separated.ne_nil (h : Separated t s) : t ≠ [] := by
  cases h <;> exact cons_ne_nil _ _

/-- Without its underscores, a text that was separated is what it was. -/
theorem Separated.filter_eq (h : Separated t s) (ht : ∀ c ∈ t, c ≠ '_') :
    s.filter (· != ofChar '_') = t := by
  induction h with
  | single => simpa using ht
  | cons k _ ih =>
    obtain ⟨hc, ht⟩ := forall_mem_cons.1 ht
    rw [filter_cons_of_pos (by simpa using hc), filter_append, ih ht]
    simp

/-- What is left of a literal: the text without its underscores and without the
    end that it may have. -/
theorem spelling_append (hs : s.filter (· != ofChar '_') = t)
    (ht : ∀ c ∈ t, c ≠ 'n') (hsuffix : suffix ∈ suffixes) :
    spelling (s ++ suffix) = t := by
  rw [spelling, filter_append, hs]
  rcases mem_cons.1 hsuffix with rfl | hsuffix
  · have hlast : t.getLast? ≠ some (ofChar 'n') :=
      fun h => ht _ (mem_of_getLast? h) rfl
    simp [hlast]
  · obtain rfl := mem_singleton.1 hsuffix
    have hend : [ofChar 'n'].filter (· != ofChar '_') =
        [ofChar 'n'] := by
      decide
    rw [hend, getLast?_concat, dropLast_concat]
    exact if_pos rfl

/-- Digits are neither underscores nor the letter at the end of an integer. -/
theorem Spells.ne_marks (h : Spells radix t n) (hradix : radix ≤ 16) (hc : c ∈ t) :
    c ≠ '_' ∧ c ≠ 'n' := by
  obtain ⟨d, hd⟩ := h.isDigit hc
  have hval := hd.val_cases hradix
  constructor
  · rintro rfl
    revert hval
    decide
  · rintro rfl
    revert hval
    decide

theorem Spells.spelling_eq (h : Spells radix t n) (hradix : radix ≤ 16) : spelling t = t := by
  have hfilter : t.filter (· != ofChar '_') = t :=
    filter_eq_self.2 fun c hc => by simpa using (h.ne_marks hradix hc).1
  have hall := spelling_append hfilter (fun c hc => (h.ne_marks hradix hc).2)
    (mem_cons_self : [] ∈ suffixes)
  rwa [append_nil] at hall

theorem Spells.toAscii?_eq (h : Spells radix t n) (hradix : radix ≤ 16) : toAscii? t = some t := by
  have hascii : ∀ c ∈ t, c.val < 127 := by
    intro c hc
    obtain ⟨d, hd⟩ := h.isDigit hc
    have := hd.val_cases hradix
    omega
  clear h
  rw [toAscii?]
  induction t with
  | nil => rfl
  | cons c t ih =>
    obtain ⟨hc, ht⟩ := forall_mem_cons.1 hascii
    simp [mapM_cons, hc, ih ht]

theorem Spells.trimEnd_eq (h : Spells radix t n) (hradix : radix ≤ 16) : trimEnd t = t := by
  have hreverse : t.reverse.dropWhile CodePoint.isAsciiSpace = t.reverse := by
    rcases hr : t.reverse with _ | ⟨c, r⟩
    · rfl
    · obtain ⟨d, hd⟩ := h.isDigit (mem_reverse.1 (hr ▸ mem_cons_self))
      have := hd.val_cases hradix
      refine dropWhile_cons_of_neg ?_
      simp only [CodePoint.isAsciiSpace, Bool.or_eq_true, Bool.and_eq_true,
        decide_eq_true_eq, beq_iff_eq]
      omega
  rw [trimEnd, hreverse, reverse_reverse]

/-- The marks are no underscores or suffixes; a radix is at most sixteen. -/
theorem of_mem_marks {mark : Char} (h : (mark, radix) ∈ marks) :
    radix ≤ 16 ∧ ofChar mark ≠ '_' ∧
      ofChar mark ≠ 'n' := by
  have hall : ∀ x ∈ marks, x.2 ≤ 16 ∧ ofChar x.1 ≠ '_' ∧
      ofChar x.1 ≠ 'n' := by
    decide
  exact hall _ h

theorem radix?_marked {mark : Char} (h : (mark, radix) ∈ marks) (t : Text) :
    radix? ('0' :: ofChar mark :: t) = some (radix, t) := by
  simp only [marks, mem_cons, Prod.mk.injEq, not_mem_nil, or_false] at h
  rcases h with ⟨rfl, rfl⟩ | ⟨rfl, rfl⟩ | ⟨rfl, rfl⟩ | ⟨rfl, rfl⟩ | ⟨rfl, rfl⟩ | ⟨rfl, rfl⟩ <;> rfl

/-- Decimal digits announce no radix: the second one is no mark. -/
theorem radix?_eq_none (ht : ∀ c ∈ t, c.isAsciiDigit = true) : radix? t = none := by
  rcases t with _ | ⟨zero, _ | ⟨c, rest⟩⟩
  · rfl
  · rfl
  · have hc := ht c (mem_cons_of_mem _ mem_cons_self)
    simp only [CodePoint.isAsciiDigit, Bool.and_eq_true, decide_eq_true_eq] at hc
    have hx : ¬(c.val = 120 ∨ c.val = 88) := by omega
    have ho : ¬(c.val = 111 ∨ c.val = 79) := by omega
    have hb : ¬(c.val = 98 ∨ c.val = 66) := by omega
    rw [radix?, if_neg hx, if_neg ho, if_neg hb, ite_self]

theorem isDigit_of_isAsciiDigit (h : c.isAsciiDigit = true) : c.isDigit = true := by
  have hval := h
  simp only [CodePoint.isAsciiDigit, Bool.and_eq_true, decide_eq_true_eq] at hval
  rw [CodePoint.isDigit, CodePoint.isDecimal, if_pos (by omega), h, Bool.true_or]

/-- Up to radix ten all digits are ASCII digits. -/
theorem Spells.isAsciiDigit (h : Spells radix t n) (hradix : radix ≤ 10) (hc : c ∈ t) :
    c.isAsciiDigit = true := by
  obtain ⟨d, hd, ⟨h10, hval⟩ | ⟨h10, -⟩⟩ := h.isDigit hc
  · simp only [CodePoint.isAsciiDigit, Bool.and_eq_true, decide_eq_true_eq]
    omega
  · omega

/-- Digits are read in radix eight if a zero leads and none rules it out. -/
theorem read_of_digits {raw : Text} (hraw : spelling raw = t) (hne : t ≠ [])
    (ht : ∀ c ∈ t, c.isAsciiDigit = true)
    (h : (if 1 < t.length && t.head? == some (ofChar '0') && t.all isOctal then
      readRadix? 8 t else readDecimal? t) = some n) : read raw = .integer n := by
  have hdigits : (!t.isEmpty && t.all CodePoint.isDigit) = true := by
    rw [Bool.and_eq_true, all_eq_true]
    exact ⟨by simpa using hne, fun c hc => isDigit_of_isAsciiDigit (ht c hc)⟩
  rw [read, read?, hraw, radix?_eq_none ht]
  dsimp only
  rw [if_pos hdigits]
  split at h
  · rename_i hoctal
    rw [if_pos hoctal, h]
    rfl
  · rename_i hdecimal
    rw [if_neg hdecimal, h]
    rfl

/-- Digits after a mark are read in the radix that it announces. -/
theorem read_marked {mark : Char} (hmark : (mark, radix) ∈ marks) (h : Spells radix t n)
    (hs : Separated t s) (hsuffix : suffix ∈ suffixes) :
    read ('0' :: ofChar mark :: (s ++ suffix)) = .integer n := by
  obtain ⟨hradix, hseparator, hend⟩ := of_mem_marks hmark
  have hspelling : spelling ('0' :: ofChar mark :: (s ++ suffix)) =
      ofChar '0' :: ofChar mark :: t := by
    refine spelling_append (s := ofChar '0' :: ofChar mark :: s) ?_ ?_ hsuffix
    · rw [filter_cons_of_pos (by decide), filter_cons_of_pos (by simpa using hseparator),
        hs.filter_eq fun c hc => (h.ne_marks hradix hc).1]
    · exact forall_mem_cons.2
        ⟨by decide, forall_mem_cons.2 ⟨hend, fun c hc => (h.ne_marks hradix hc).2⟩⟩
  rw [read, read?, hspelling, radix?_marked hmark]
  dsimp only
  rw [h.toAscii?_eq hradix, Option.bind_eq_bind, Option.bind_some, h.trimEnd_eq hradix,
    readRadix?_eq h hradix hs.ne_nil]
  rfl

/-- Digits without a leading zero are read in base ten, and so is `0`. -/
theorem read_decimal (h : Spells 10 t n) (hlength : t.length ≤ maxDigits)
    (hzero : t = [ofChar '0'] ∨ t.head? ≠ some (ofChar '0'))
    (hs : Separated t s) (hsuffix : suffix ∈ suffixes) : read (s ++ suffix) = .integer n := by
  have hmarks {c : CodePoint} (hc : c ∈ t) := h.ne_marks (by decide) hc
  have hspelling : spelling (s ++ suffix) = t :=
    spelling_append (hs.filter_eq fun _ hc => (hmarks hc).1) (fun _ hc => (hmarks hc).2) hsuffix
  refine read_of_digits hspelling hs.ne_nil (fun c hc => h.isAsciiDigit (by decide) hc) ?_
  have hoctal : ¬(1 < t.length && t.head? == some (ofChar '0') &&
      t.all isOctal) = true := by
    rcases hzero with rfl | hzero
    · decide
    · simp [hzero]
  rw [if_neg hoctal, readDecimal?_eq h hlength]

/-- Octal digits after a leading zero are read in radix eight. -/
theorem read_octal (h : Spells 8 t n) : read ('0' :: t) = .integer n := by
  have hled := h.cons_zero (by decide)
  refine read_of_digits (hled.spelling_eq (by decide)) (cons_ne_nil _ _)
    (fun c hc => hled.isAsciiDigit (by decide) hc) ?_
  rcases t with _ | ⟨c, t⟩
  · -- the zero alone, whose value is the same in base ten
    obtain ⟨ds, hds, rfl⟩ := h
    cases hds
    rfl
  · have hoctal : (ofChar '0' :: c :: t).all isOctal = true := by
      refine all_eq_true.2 fun c hc => ?_
      obtain ⟨d, hd, ⟨-, hval⟩ | ⟨h10, -⟩⟩ := hled.isDigit hc
      · simp only [isOctal, Bool.and_eq_true, decide_eq_true_eq]
        omega
      · omega
    rw [hoctal, if_pos (by simp), readRadix?_eq hled (by decide) (cons_ne_nil _ _)]

/-- Digits after a leading zero, not all octal, are read in base ten. -/
theorem read_zeroLed (h : Spells 10 t n)
    (hnot : ofChar '8' ∈ t ∨ ofChar '9' ∈ t)
    (hlength : (ofChar '0' :: t).length ≤ maxDigits) :
    read (ofChar '0' :: t) = .integer n := by
  have hled := h.cons_zero (by decide)
  refine read_of_digits (hled.spelling_eq (by decide)) (cons_ne_nil _ _)
    (fun c hc => hled.isAsciiDigit (by decide) hc) ?_
  have hoctal : (ofChar '0' :: t).all isOctal = false := by
    rw [all_eq_false]
    rcases hnot with hc | hc
    · exact ⟨_, mem_cons_of_mem _ hc, by decide⟩
    · exact ⟨_, mem_cons_of_mem _ hc, by decide⟩
  rw [hoctal, Bool.and_false, if_neg Bool.false_ne_true, readDecimal?_eq hled hlength]

end Reading

/-- Integer literals are read in their radix. Whatever integer a literal spells,
    with a mark for its radix, in base ten, as a legacy octal literal or in base
    ten after a leading zero, that integer is read. -/
theorem integer_read {literal : Text} {n : Nat} (h : IntegerLiteral literal n) :
    read literal = .integer n := by
  cases h with
  | marked hmark hspells hs hsuffix => exact read_marked hmark hspells hs hsuffix
  | decimal hspells hlength hzero hs hsuffix => exact read_decimal hspells hlength hzero hs hsuffix
  | octal hspells => exact read_octal hspells
  | zeroLed hspells hnot hlength => exact read_zeroLed hspells hnot hlength

/-- A literal of every form. -/
theorem read_each_form :
    (IntegerLiteral "0X0_fF__7n" 4087 ∧ read "0X0_fF__7n" = .integer 4087) ∧
      (IntegerLiteral "1_00n" 100 ∧ read "1_00n" = .integer 100) ∧
      (IntegerLiteral "0017" 15 ∧ read "0017" = .integer 15) ∧
      (IntegerLiteral "0189" 189 ∧ read "0189" = .integer 189) := by
  have hmarked : IntegerLiteral "0X0_fF__7n" 4087 :=
    .marked (by decide : ('X', 16) ∈ marks)
      ⟨[0, 15, 15, 7], .cons (by decide)
        (.cons (by decide) (.cons (by decide) (.cons (by decide) .nil))), rfl⟩
      (.cons 1 (.cons 0 (.cons 2 .single))) (by decide : [ofChar 'n'] ∈ suffixes)
  have hdecimal : IntegerLiteral "1_00n" 100 :=
    .decimal ⟨[1, 0, 0], .cons (by decide)
      (.cons (by decide) (.cons (by decide) .nil)), rfl⟩ (by decide)
      (.inr (by decide)) (.cons 1 (.cons 0 .single)) (by decide : [ofChar 'n'] ∈ suffixes)
  have hoctal : IntegerLiteral "0017" 15 :=
    .octal ⟨[0, 1, 7], .cons (by decide) (.cons (by decide) (.cons (by decide) .nil)), rfl⟩
  have hzeroLed : IntegerLiteral "0189" 189 :=
    .zeroLed ⟨[1, 8, 9], .cons (by decide) (.cons (by decide) (.cons (by decide) .nil)),
      rfl⟩ (by decide) (by decide)
  exact ⟨⟨hmarked, integer_read hmarked⟩, ⟨hdecimal, integer_read hdecimal⟩,
    ⟨hoctal, integer_read hoctal⟩, ⟨hzeroLed, integer_read hzeroLed⟩⟩

end Number

end Resugar
