import Mathlib.Data.List.TakeWhile
import Mathlib.Data.Nat.Digits.Defs
import Resugar.Proofs.Text.StringLiteral

/-!
# The values of string literals

The grammar of the language says what stands between the quotes of a string and
which UTF-16 code units it gives. How far an escape goes may depend on what
follows: a digit after `\0`, an octal digit after `\7`, a line feed after a
carriage return.

`StringLiteral.escape?` goes as far as the grammar does, with one exception: it
takes three octal digits where there are three, and the grammar takes two if the
first one is above `3`. The literal `"\400"` is a blank and a `0`, and is read
as one code point, U+0100. So a string literal has the code units of the grammar
if and only if no escape in it is such an exception.
-/

namespace Resugar

open List
open Text (ofString)
open CodePoint (ofChar)

/-- The code units of a code point in UTF-16. -/
def CodePoint.utf16 (c : CodePoint) : List Nat :=
  if c.val < 0x10000 then [c.val]
  else [0xD800 + (c.val - 0x10000) / 0x400, 0xDC00 + (c.val - 0x10000) % 0x400]

/-- The code units of a text in UTF-16. -/
def Text.utf16 (t : Text) : List Nat :=
  t.flatMap CodePoint.utf16

theorem Text.utf16_cons (c : CodePoint) (t : Text) : Text.utf16 (c :: t) = c.utf16 ++ t.utf16 :=
  flatMap_cons

theorem Text.utf16_append (s t : Text) : (s ++ t).utf16 = s.utf16 ++ t.utf16 :=
  flatMap_append

theorem CodePoint.utf16_of_lt {c : CodePoint} (h : c.val < 0x10000) : c.utf16 = [c.val] :=
  if_pos h

namespace StringLiteral

/-! ## The grammar -/

/-- The characters that stand for a code unit after a backslash. -/
def singleEscapes : List (Char × Nat) :=
  [('\'', 0x27), ('"', 0x22), ('\\', 0x5C), ('b', 0x08), ('f', 0x0C), ('n', 0x0A), ('r', 0x0D),
    ('t', 0x09), ('v', 0x0B)]

/-- The code points with a meaning after a backslash, line ends apart. -/
def isEscapeCharacter (c : CodePoint) : Bool :=
  (singleEscapes.any fun e => c == ofChar e.1) || c.isAsciiDigit ||
    c == 'x' ||
    c == 'u'

/-- The number that digits spell. -/
def digitsValue (radix : Nat) (digits : Text) : Nat :=
  Nat.ofDigits radix (digits.reverse.map fun d => d.hexValue?.getD 0)

/-- The escapes of strings and templates: `Escape e rest units` says that `e` is
    one, after a backslash and before `rest`, and gives the code units
    `units`. -/
inductive Escape : Text → Text → List Nat → Prop where
  | single {rest : Text} {c : Char} {unit : Nat} :
    (c, unit) ∈ singleEscapes → Escape [ofChar c] rest [unit]
  | itself {rest : Text} {c : CodePoint} :
    isEscapeCharacter c = false → isLineEnd c = false → Escape [c] rest c.utf16
  | null {rest : Text} :
    rest.head?.any CodePoint.isAsciiDigit = false → Escape ['0'] rest [0]
  | hex {rest digits : Text} :
    digits.length = 2 → digits.all isHex →
      Escape ('x' :: digits) rest [digitsValue 16 digits]
  | unicode {rest digits : Text} :
    digits.length = 4 → digits.all isHex →
      Escape ('u' :: digits) rest [digitsValue 16 digits]
  | codePoint {rest digits : Text} {c : CodePoint} :
    digits ≠ [] → digits.all isHex → digitsValue 16 digits = c.val →
      Escape ('u' :: '\x7b' ::
        (digits ++ [ofChar '\x7d'])) rest c.utf16

/-- The line ends: `LineBreak e rest` says that `e` is one before `rest`. -/
inductive LineBreak : Text → Text → Prop where
  | lineFeed {rest : Text} : LineBreak [ofChar '\n'] rest
  | carriageReturn {rest : Text} :
    rest.head? ≠ some (ofChar '\n') → LineBreak [ofChar '\r'] rest
  | both {rest : Text} : LineBreak [ofChar '\r', ofChar '\n'] rest
  | lineSeparator {rest : Text} : LineBreak [⟨0x2028, by decide⟩] rest
  | paragraphSeparator {rest : Text} : LineBreak [⟨0x2029, by decide⟩] rest

/-- The octal digits below `4`, of which an octal escape takes three. -/
def isLowOctal (c : CodePoint) : Bool :=
  48 ≤ c.val && c.val ≤ 51

/-- The other octal digits, of which an octal escape takes two. -/
def isHighOctal (c : CodePoint) : Bool :=
  52 ≤ c.val && c.val ≤ 55

/-- The escapes of strings. -/
inductive StringEscape : Text → Text → List Nat → Prop where
  | common {e rest : Text} {units : List Nat} : Escape e rest units → StringEscape e rest units
  | continuation {e rest : Text} : LineBreak e rest → StringEscape e rest []
  | zero {rest : Text} :
    rest.head?.any (fun d => d.isAsciiDigit && !isOctal d) →
      StringEscape ['0'] rest [0]
  | octal {rest : Text} {a : CodePoint} :
    isOctal a → a ≠ '0' → rest.head?.any isOctal = false →
      StringEscape [a] rest [digitsValue 8 [a]]
  | lowPair {rest : Text} {a b : CodePoint} :
    isLowOctal a → isOctal b → rest.head?.any isOctal = false →
      StringEscape [a, b] rest [digitsValue 8 [a, b]]
  | highPair {rest : Text} {a b : CodePoint} :
    isHighOctal a → isOctal b → StringEscape [a, b] rest [digitsValue 8 [a, b]]
  | triple {rest : Text} {a b c : CodePoint} :
    isLowOctal a → isOctal b → isOctal c → StringEscape [a, b, c] rest [digitsValue 8 [a, b, c]]
  | decimal {rest : Text} {d : CodePoint} :
    d.isAsciiDigit → isOctal d = false → StringEscape [d] rest [d.val]

/-- What stands between two quotes, and the code units that it gives. -/
inductive StringCharacters (quote : CodePoint) : Text → List Nat → Prop where
  | nil : StringCharacters quote [] []
  | char {c : CodePoint} {t : Text} {units : List Nat} :
    c ≠ quote → c ≠ '\\' → c ≠ '\n' → c ≠ '\r' →
    StringCharacters quote t units → StringCharacters quote (c :: t) (c.utf16 ++ units)
  | escape {e rest : Text} {here units : List Nat} :
    StringEscape e rest here → StringCharacters quote rest units →
    StringCharacters quote (ofChar '\\' :: e ++ rest) (here ++ units)

variable {c : CodePoint} {digits : Text}

theorem isLineEnd_eq_false :
    isLineEnd c = false ↔ c.val ≠ 0x0A ∧ c.val ≠ 0x0D ∧ c.val ≠ 0x2028 ∧ c.val ≠ 0x2029 := by
  simp [isLineEnd, and_assoc]

/-! ## Numerals -/

/-- Digits are read as the number that they spell. -/
theorem number_eq_digitsValue (radix : Nat) (digits : Text) :
    number radix digits = digitsValue radix digits := by
  induction digits using reverseRecOn with
  | nil => rfl
  | append_singleton digits d ih =>
    have hnumber : number radix (digits ++ [d]) = number radix digits * radix +
        d.hexValue?.getD 0 := by
      rw [number, foldl_append, ← number]
      rfl
    have hvalue : digitsValue radix (digits ++ [d]) = d.hexValue?.getD 0 + radix *
        digitsValue radix digits := by
      rw [digitsValue, reverse_append, reverse_singleton, singleton_append,
        map_cons, Nat.ofDigits_cons]
      rfl
    rw [hnumber, hvalue, ih, Nat.mul_comm, Nat.add_comm]

/-- So many digits spell a number below the power of the radix. -/
theorem digitsValue_lt {radix : Nat} (hradix : 1 < radix)
    (h : ∀ d ∈ digits, d.hexValue?.getD 0 < radix) :
    digitsValue radix digits < radix ^ digits.length := by
  have hdigits : ∀ v ∈ digits.reverse.map fun d => d.hexValue?.getD 0, v < radix := by
    intro v hv
    obtain ⟨d, hd, rfl⟩ := mem_map.1 hv
    exact h d (mem_reverse.1 hd)
  have hlt := Nat.ofDigits_lt_base_pow_length hradix hdigits
  rwa [length_map, length_reverse] at hlt

theorem hexValue_lt (c : CodePoint) : c.hexValue?.getD 0 < 16 := by
  rw [CodePoint.hexValue?]
  split_ifs <;> simp only [Option.getD_some, Option.getD_none] <;> omega

theorem hexValue_lt_of_isOctal (h : isOctal c) : c.hexValue?.getD 0 < 8 := by
  simp only [isOctal, Bool.and_eq_true, decide_eq_true_eq] at h
  rw [CodePoint.hexValue?, if_pos (by omega), Option.getD_some]
  omega

/-- A number that fits in one code unit is the code unit of its code point. -/
theorem point_of_lt {n : Nat} (h : n < 0x10000) :
    ∃ c : CodePoint, point n = .ok [c] ∧ Text.utf16 [c] = [n] := by
  have hn : n < 0x110000 := by omega
  refine ⟨⟨n, hn⟩, ?_, ?_⟩
  · rw [point, CodePoint.ofNat?, dif_pos hn]
  · exact (flatMap_singleton ..).trans (CodePoint.utf16_of_lt h)

/-! ## Escapes -/

theorem isOctal_of_isHighOctal (h : isHighOctal c) : isOctal c := by
  simp only [isHighOctal, isOctal, Bool.and_eq_true, decide_eq_true_eq] at h ⊢
  omega

theorem isOctal_of_isLowOctal (h : isLowOctal c) : isOctal c := by
  simp only [isLowOctal, isOctal, Bool.and_eq_true, decide_eq_true_eq] at h ⊢
  omega

/-- An octal escape takes all octal digits there are, up to three. -/
theorem escape?_octal (digits rest : Text) (hne : digits ≠ []) (hoctal : digits.all isOctal)
    (hend : digits.length = 3 ∨ digits.length < 3 ∧ rest.head?.any isOctal = false) :
    ∃ t, escape? (digits ++ rest) = some (.ok t, digits.length) ∧
      t.utf16 = [digitsValue 8 digits] := by
  have htaken : ((digits ++ rest).take 3).takeWhile isOctal = digits := by
    rcases hend with hlength | ⟨hlength, hrest⟩
    · rw [take_left' hlength]
      exact takeWhile_eq_self_iff.2 fun d hd => all_eq_true.1 hoctal d hd
    · rw [take_append, take_of_length_le hlength.le,
        takeWhile_append_of_pos fun d hd => all_eq_true.1 hoctal d hd]
      suffices (rest.take (3 - digits.length)).takeWhile isOctal = [] by rw [this, append_nil]
      cases rest with
      | nil => simp
      | cons d rest =>
        obtain ⟨k, hk⟩ : ∃ k, 3 - digits.length = k + 1 := ⟨2 - digits.length, by omega⟩
        rw [hk, take_succ_cons]
        exact takeWhile_cons_of_neg (by simpa using hrest)
  have hlt : digitsValue 8 digits < 0x10000 := by
    have hlt :=
      digitsValue_lt (by decide) fun d hd => hexValue_lt_of_isOctal (all_eq_true.1 hoctal d hd)
    have hle : 8 ^ digits.length ≤ 8 ^ 3 := Nat.pow_le_pow_right (by decide) (by omega)
    omega
  obtain ⟨c, hc, hunits⟩ := point_of_lt hlt
  refine ⟨[c], ?_, hunits⟩
  obtain ⟨a, digits, rfl⟩ := exists_cons_of_ne_nil hne
  have ha : isOctal a := (all_cons.symm.trans hoctal |> Bool.and_eq_true_iff.1).1
  have hu : a ≠ 'u' := fun h => by rw [h] at ha; cases ha
  have hx : a ≠ 'x' := fun h => by rw [h] at ha; cases ha
  rw [cons_append] at htaken ⊢
  rw [escape?, if_neg hu, if_neg hx, if_pos ha, htaken]
  simp only [number_eq_digitsValue, hc]

/-- So many hexadecimal digits are read, whatever follows. -/
theorem fixed?_append {width : Nat} (hlength : digits.length = width) (hhex : digits.all isHex)
    (rest : Text) : fixed? width (digits ++ rest) = some (digitsValue 16 digits) := by
  rw [fixed?, take_left' hlength, if_pos ⟨hlength, hhex⟩, number_eq_digitsValue]

/-- Hexadecimal digits in braces are read, whatever follows. -/
theorem braced?_append (hne : digits ≠ []) (hhex : digits.all isHex) (rest : Text) :
    braced? ('\x7b' :: (digits ++ ofChar '\x7d' :: rest)) =
      some (digitsValue 16 digits, digits.length + 2) := by
  have htaken : (digits ++ ofChar '\x7d' :: rest).takeWhile isHex = digits := by
    rw [takeWhile_append_of_pos fun d hd => all_eq_true.1 hhex d hd,
      takeWhile_cons_of_neg (by decide), append_nil]
  rw [braced?, htaken, number_eq_digitsValue, if_pos]
  refine ⟨rfl, by simpa using hne, ?_⟩
  rw [getElem?_append_right le_rfl, Nat.sub_self]
  rfl

theorem braced?_of_isHex {d : CodePoint} (h : isHex d) (t : Text) : braced? (d :: t) = none := by
  rw [braced?, if_neg]
  rintro ⟨hd, -⟩
  rw [isHex, CodePoint.hexValue?, hd] at h
  cases h

theorem isAsciiDigit_of_isOctal (h : isOctal c) : c.isAsciiDigit := by
  simp only [isOctal, CodePoint.isAsciiDigit, Bool.and_eq_true, decide_eq_true_eq] at h ⊢
  omega

/-- A code point that begins no longer escape and is no letter for another one
    stands for itself. -/
theorem escape?_itself
    (hlong : c ≠ 'u' ∧ c ≠ 'x' ∧ isOctal c = false)
    (hend : isLineEnd c = false) (hletter : ∀ letter ∈ ['b', 'f', 'n', 'r', 't', 'v'],
      c ≠ ofChar letter) (rest : Text) : escape? (c :: rest) = some (.ok [c], 1) := by
  simp only [forall_mem_cons, not_mem_nil, false_imp_iff,
    implies_true, and_true] at hletter
  obtain ⟨hb, hf, hn, hr, ht, hv⟩ := hletter
  have hreturn := (isLineEnd_eq_false.1 hend).2.1
  rw [escape?, if_neg hlong.1, if_neg hlong.2.1, if_neg (by simp [hlong.2.2]),
    if_neg fun h => hreturn h.1, simple, if_neg (by simp [hend]), if_neg hn, if_neg ht, if_neg hr,
    if_neg hb, if_neg hf, if_neg hv]

/-- An escape is read as far as it goes, and gives its code units. -/
theorem Escape.escape?_eq {e rest : Text} {units : List Nat} (h : Escape e rest units) :
    ∃ t, escape? (e ++ rest) = some (.ok t, e.length) ∧ t.utf16 = units := by
  have hhex (digits : Text) : digitsValue 16 digits < 16 ^ digits.length :=
    digitsValue_lt (by decide) fun d _ => hexValue_lt d
  cases h with
  | @single _ c unit h =>
    simp only [singleEscapes, mem_cons, not_mem_nil, or_false, Prod.mk.injEq] at h
    rcases h with ⟨rfl, rfl⟩ | ⟨rfl, rfl⟩ | ⟨rfl, rfl⟩ | ⟨rfl, rfl⟩ | ⟨rfl, rfl⟩ | ⟨rfl, rfl⟩ |
      ⟨rfl, rfl⟩ | ⟨rfl, rfl⟩ | ⟨rfl, rfl⟩ <;> exact ⟨_, rfl, rfl⟩
  | @itself _ c hc hend =>
    simp only [isEscapeCharacter, singleEscapes, any_cons, any_nil, Bool.or_false,
      Bool.or_eq_false_iff, beq_eq_false_iff_ne] at hc
    obtain ⟨⟨⟨⟨-, -, -, hletter⟩, hdigit⟩, hx⟩, hu⟩ := hc
    have hoctal : isOctal c = false :=
      Bool.eq_false_iff.2 fun h => by simp [isAsciiDigit_of_isOctal h] at hdigit
    exact ⟨[c], escape?_itself ⟨hu, hx, hoctal⟩ hend (by simpa using hletter) rest,
      flatMap_singleton ..⟩
  | null h =>
    -- read as an octal escape of one digit
    have hrest : rest.head?.any isOctal = false := by
      cases rest with
      | nil => rfl
      | cons d rest => exact Bool.eq_false_iff.2 fun hd => by simp [isAsciiDigit_of_isOctal hd] at h
    exact escape?_octal ['0'] rest (cons_ne_nil _ _) rfl
      (.inr ⟨by decide, hrest⟩)
  | @hex _ digits hlength hdigits =>
    have hlt := hhex digits
    rw [hlength] at hlt
    obtain ⟨c, hc, hunits⟩ := point_of_lt (hlt.trans (by decide))
    refine ⟨[c], ?_, hunits⟩
    rw [cons_append, escape?, if_neg (by decide), if_pos rfl, fixed?_append hlength hdigits]
    simp only [hc, length_cons, hlength]
  | @unicode _ digits hlength hdigits =>
    have hlt := hhex digits
    rw [hlength] at hlt
    obtain ⟨c, hc, hunits⟩ := point_of_lt (hlt.trans_le (by decide))
    refine ⟨[c], ?_, hunits⟩
    obtain ⟨d, digits, rfl⟩ := exists_cons_of_length_eq_add_one hlength
    rw [cons_append, escape?, if_pos rfl, fixed?_append hlength hdigits, cons_append,
      braced?_of_isHex (Bool.and_eq_true_iff.1 hdigits).1]
    simp only [hc, length_cons] at hlength ⊢
    rw [hlength]
  | @codePoint _ digits c hne hdigits hc =>
    refine ⟨[c], ?_, flatMap_singleton ..⟩
    have hpoint : point c.val = .ok [c] := by rw [point, CodePoint.ofNat?, dif_pos c.isLt]
    rw [cons_append, cons_append, append_assoc, singleton_append, escape?,
      if_pos rfl, braced?_append hne hdigits, hc]
    simp [hpoint]

/-- A line end after a backslash is read as nothing. -/
theorem LineBreak.escape?_eq {e rest : Text} (h : LineBreak e rest) :
    escape? (e ++ rest) = some (.ok [], e.length) := by
  cases h with
  | lineFeed | both | lineSeparator | paragraphSeparator => rfl
  | carriageReturn h =>
    rw [singleton_append, escape?, if_neg (by decide), if_neg (by decide), if_neg (by decide),
      if_neg fun hb => h hb.2]
    rfl

/-! ## Octal escapes that are read too far -/

end StringLiteral

/-- What follows each backslash that begins an escape. -/
def Text.escapeTails : Text → List Text
  | [] => []
  | [c] => if c = '\\' then [[]] else []
  | c :: d :: t =>
    if c = '\\' then (d :: t) :: escapeTails t else escapeTails (d :: t)

theorem Text.escapeTails_cons {c : CodePoint} (h : c ≠ '\\') (t : Text) :
    escapeTails (c :: t) = escapeTails t := by
  cases t with
  | nil => simp [escapeTails, h]
  | cons d t => rw [escapeTails, if_neg h]

/-- No escape begins in a text without a backslash. -/
theorem Text.escapeTails_append {s : Text} (h : ofChar '\\' ∉ s) (t : Text) :
    escapeTails (s ++ t) = escapeTails t := by
  induction s with
  | nil => rfl
  | cons c s ih =>
    rw [mem_cons, not_or] at h
    rw [cons_append, escapeTails_cons (Ne.symm h.1), ih h.2]

/-- No escape of a text has a property if none is counted. -/
theorem Text.countP_escapeTails {t : Text} {p : Text → Bool} :
    t.escapeTails.countP p = 0 ↔ ∀ tail ∈ t.escapeTails, p tail = false := by
  rw [countP_eq_zero]
  exact forall₂_congr fun _ _ => iff_of_eq (Bool.not_eq_true _)

namespace StringLiteral

/-- Whether an escape begins with three octal digits, `400` or more. -/
def isWideOctal : Text → Bool
  | a :: b :: c :: _ => isHighOctal a && isOctal b && isOctal c
  | _ => false

variable {e rest t : Text} {units : List Nat}

/-- No backslash stands in an escape, unless it is all of it. -/
theorem StringEscape.escapeTails_eq (h : StringEscape e rest units) :
    Text.escapeTails (ofChar '\\' :: e ++ rest) = (e ++ rest) :: rest.escapeTails := by
  have hcons (d : CodePoint) {digits : Text} (hdigits : ofChar '\\' ∉ digits) :
      Text.escapeTails (ofChar '\\' :: (d :: digits) ++ rest) =
        (d :: digits ++ rest) :: rest.escapeTails := by
    rw [cons_append, cons_append, Text.escapeTails, if_pos rfl,
      Text.escapeTails_append hdigits]
  have hhex {digits : Text} (h : digits.all isHex) : ofChar '\\' ∉ digits :=
    fun hmem => by cases all_eq_true.1 h _ hmem
  have hoctal {d : CodePoint} (h : isOctal d) : '\\' ≠ d :=
    fun heq => by rw [← heq] at h; cases h
  cases h with
  | common h =>
    cases h with
    | single | itself | null => exact hcons _ not_mem_nil
    | hex _ h | unicode _ h => exact hcons _ (hhex h)
    | codePoint _ h => exact hcons _ (by simpa using ⟨by decide, hhex h, by decide⟩)
  | continuation h =>
    cases h with
    | lineFeed | carriageReturn | lineSeparator | paragraphSeparator =>
      exact hcons _ not_mem_nil
    | both => exact hcons _ (by decide)
  | zero | octal | decimal => exact hcons _ not_mem_nil
  | lowPair _ h | highPair _ h => exact hcons _ (by simpa using hoctal h)
  | triple _ hb hc => exact hcons _ (by simpa using ⟨hoctal hb, hoctal hc⟩)

/-- Such an escape begins with a high octal digit and two more. -/
theorem exists_of_isWideOctal (h : isWideOctal t) :
    ∃ a b c rest, t = a :: b :: c :: rest ∧ isHighOctal a ∧ isOctal b ∧ isOctal c := by
  rcases t with _ | ⟨a, _ | ⟨b, _ | ⟨c, rest⟩⟩⟩
  · cases h
  · cases h
  · cases h
  · rw [isWideOctal, Bool.and_eq_true, Bool.and_eq_true] at h
    exact ⟨a, b, c, rest, rfl, h.1.1, h.1.2, h.2⟩

/-- The escapes that strings and templates share are not octal ones. -/
theorem Escape.not_isWideOctal (h : Escape e rest units) : ¬isWideOctal (e ++ rest) := by
  intro hwide
  obtain ⟨a, b, c, rest', heq, ha, -⟩ := exists_of_isWideOctal hwide
  cases h with
  | single h =>
    cases heq
    have hall : singleEscapes.all fun e => !isHighOctal (ofChar e.1) := by decide
    simpa [ha] using all_eq_true.1 hall _ h
  | itself hc _ =>
    cases heq
    simp [isEscapeCharacter, isAsciiDigit_of_isOctal (isOctal_of_isHighOctal ha)] at hc
  | null | hex | unicode | codePoint =>
    cases (cons.inj heq).1
    cases ha

/-- Of the escapes, only pairs of octal digits are read too far. -/
theorem StringEscape.eq_pair (h : StringEscape e rest units) (hwide : isWideOctal (e ++ rest)) :
    ∃ a b c rest', e = [a, b] ∧ rest = c :: rest' ∧ isHighOctal a ∧ isOctal b ∧ isOctal c ∧
      units = [digitsValue 8 e] := by
  obtain ⟨a, b, c, rest', heq, ha, hb, hc⟩ := exists_of_isWideOctal hwide
  have hlow {d : CodePoint} (h : isLowOctal d) : d ≠ a := by
    rintro rfl
    simp only [isLowOctal, isHighOctal, Bool.and_eq_true, decide_eq_true_eq] at h ha
    omega
  cases h with
  | common h => exact absurd hwide h.not_isWideOctal
  | continuation h => cases h <;> cases (cons.inj heq).1 <;> cases ha
  | zero =>
    cases (cons.inj heq).1
    cases ha
  | octal _ _ h =>
    cases heq
    rw [head?_cons, Option.any_some, hb] at h
    cases h
  | lowPair h | triple h => exact absurd (cons.inj heq).1 (hlow h)
  | highPair =>
    cases heq
    exact ⟨a, b, c, rest', rfl, rfl, ha, hb, hc, rfl⟩
  | decimal _ h =>
    cases heq
    rw [isOctal_of_isHighOctal ha] at h
    cases h

/-- Every escape of strings is read as it should be, but for octal ones of three
    digits above `377`. The cases are those of the grammar: an escape that
    templates share, a line end, and octal digits. -/
theorem StringEscape.escape?_eq (h : StringEscape e rest units)
    (hwide : isWideOctal (e ++ rest) = false) :
    ∃ t, escape? (e ++ rest) = some (.ok t, e.length) ∧ t.utf16 = units := by
  cases h with
  | common h => exact h.escape?_eq
  | continuation h => exact ⟨[], h.escape?_eq, rfl⟩
  | zero h =>
    have hrest : rest.head?.any isOctal = false := by
      cases rest with
      | nil => rfl
      | cons d rest => simpa using (Bool.and_eq_true_iff.1 h).2
    exact escape?_octal ['0'] rest (cons_ne_nil _ _) rfl
      (.inr ⟨by decide, hrest⟩)
  | @octal _ a ha _ hrest =>
    exact escape?_octal [a] rest (cons_ne_nil _ _) (by simpa using ha) (.inr ⟨by simp, hrest⟩)
  | @lowPair _ a b ha hb hrest =>
    exact escape?_octal [a, b] rest (cons_ne_nil _ _)
      (by simpa using ⟨isOctal_of_isLowOctal ha, hb⟩) (.inr ⟨by simp, hrest⟩)
  | @highPair _ a b ha hb =>
    -- only here a third digit would be read that does not belong to the escape
    have hrest : rest.head?.any isOctal = false := by
      cases rest with
      | nil => rfl
      | cons d rest => simpa [isWideOctal, ha, hb] using hwide
    exact escape?_octal [a, b] rest (cons_ne_nil _ _)
      (by simpa using ⟨isOctal_of_isHighOctal ha, hb⟩) (.inr ⟨by simp, hrest⟩)
  | @triple _ a b c ha hb hc =>
    exact escape?_octal [a, b, c] rest (cons_ne_nil _ _)
      (by simpa using ⟨isOctal_of_isLowOctal ha, hb, hc⟩) (.inl rfl)
  | @decimal _ d hd hoctal =>
    have hne {c : CodePoint} (hc : c.isAsciiDigit = false) : d ≠ c :=
      fun h => by rw [h, hc] at hd; cases hd
    have hlt : d.val < 0x10000 := by
      simp only [CodePoint.isAsciiDigit, Bool.and_eq_true, decide_eq_true_eq] at hd
      omega
    have hend : isLineEnd d = false := by
      simp only [CodePoint.isAsciiDigit, Bool.and_eq_true, decide_eq_true_eq] at hd
      rw [isLineEnd_eq_false]
      omega
    have hletter : ∀ letter ∈ ['b', 'f', 'n', 'r', 't', 'v'], d ≠ ofChar letter := by
      have hall : ∀ letter ∈ ['b', 'f', 'n', 'r', 't', 'v'],
          (ofChar letter).isAsciiDigit = false := by
        simp only [forall_mem_cons]
        exact ⟨rfl, rfl, rfl, rfl, rfl, rfl, forall_mem_nil _⟩
      exact fun letter hmem => hne (hall letter hmem)
    exact ⟨[d], escape?_itself ⟨hne rfl, hne rfl, hoctal⟩ hend hletter rest,
      (flatMap_singleton ..).trans (CodePoint.utf16_of_lt hlt)⟩

/-- A text is read escape by escape. -/
theorem unescape_escape {u : Text} (he : escape? (e ++ rest) = some (.ok t, e.length))
    (hrest : unescape 0 rest = .ok u) :
    unescape 0 ('\\' :: (e ++ rest)) = .ok (t ++ u) := by
  rw [unescape, if_pos rfl, he]
  simp only [unescape_length_append, hrest]
  rfl

/-- Reading the escapes of a string gives the code units of the grammar, less
    one for each octal escape that is read too far. -/
theorem unescape_utf16 {quote : CodePoint} {body : Text} (h : StringCharacters quote body units) :
    ∃ t, unescape 0 body = .ok t ∧ t.utf16.length + body.escapeTails.countP isWideOctal =
      units.length ∧ (body.escapeTails.countP isWideOctal = 0 → t.utf16 = units) := by
  induction h with
  | nil => exact ⟨[], rfl, rfl, fun _ => rfl⟩
  | @char c t units _ hbackslash _ _ _ ih =>
    obtain ⟨u, hu, hlength, hunits⟩ := ih
    rw [Text.escapeTails_cons hbackslash]
    refine ⟨c :: u, ?_, ?_, fun h => ?_⟩
    · rw [unescape, if_neg hbackslash, hu]
      rfl
    · rw [Text.utf16_cons, length_append, length_append, ← hlength, Nat.add_assoc]
    · rw [Text.utf16_cons, hunits h]
  | @escape e rest here units hescape _ ih =>
    obtain ⟨u, hu, hlength, hunits⟩ := ih
    rw [hescape.escapeTails_eq, countP_cons]
    by_cases hwide : isWideOctal (e ++ rest) = true
    · obtain ⟨a, b, c, rest, rfl, rfl, ha, hb, hc, rfl⟩ := hescape.eq_pair hwide
      -- The third digit, which is read as part of the escape, is a character of
      -- its own in the grammar.
      have hbackslash : c ≠ '\\' := fun h => by rw [h] at hc; cases hc
      have hlt : c.val < 0x10000 := by
        simp only [isOctal, Bool.and_eq_true, decide_eq_true_eq] at hc
        omega
      obtain ⟨v, hv, hvunits⟩ := escape?_octal [a, b, c] rest (cons_ne_nil _ _)
        (by simpa using ⟨isOctal_of_isHighOctal ha, hb, hc⟩) (.inl rfl)
      rw [unescape, if_neg hbackslash] at hu
      obtain ⟨w, hw, hu⟩ := bind_eq_ok.1 hu
      cases hu
      rw [if_pos hwide]
      have hread := unescape_escape hv hw
      refine ⟨v ++ w, hread, ?_, fun h => absurd h (Nat.succ_ne_zero _)⟩
      rw [Text.utf16_cons, CodePoint.utf16_of_lt hlt, length_append] at hlength
      rw [Text.utf16_append, length_append, length_append, hvunits, ← hlength]
      simp only [length_singleton]
      omega
    · obtain ⟨v, hv, rfl⟩ := hescape.escape?_eq (Bool.eq_false_iff.2 hwide)
      rw [if_neg hwide, Nat.add_zero]
      refine ⟨v ++ u, unescape_escape hv hu, ?_, fun h => ?_⟩
      · rw [Text.utf16_append, length_append, length_append, ← hlength, Nat.add_assoc]
      · rw [Text.utf16_append, hunits h]

/-! ## Values -/

/-- A surrogate pair and its code point have the same code units. -/
theorem pair_utf16 {high low : CodePoint} (hhigh : high.isHighSurrogate)
    (hlow : low.isLowSurrogate) : (pair high low).utf16 = high.utf16 ++ low.utf16 := by
  simp only [CodePoint.isHighSurrogate, CodePoint.isLowSurrogate, Bool.and_eq_true,
    decide_eq_true_eq] at hhigh hlow
  have hlt : 0x10000 + (high.val - 0xD800) * 0x400 + (low.val - 0xDC00) < 0x110000 := by omega
  have hhigh' : high.utf16 = [high.val] := CodePoint.utf16_of_lt (by omega)
  have hlow' : low.utf16 = [low.val] := CodePoint.utf16_of_lt (by omega)
  have hwide : ¬0x10000 + (high.val - 0xD800) * 0x400 + (low.val - 0xDC00) < 0x10000 := by omega
  rw [pair, CodePoint.ofNat?, dif_pos hlt, Option.getD_some, hhigh', hlow',
    CodePoint.utf16, if_neg hwide]
  simp only [cons_append, nil_append, cons.injEq, and_true]
  omega

/-- Joining surrogate pairs changes no code unit. -/
theorem joinPairs?_utf16 {u : Text} (h : joinPairs? t = some u) : u.utf16 = t.utf16 := by
  fun_induction joinPairs? t generalizing u with
  | case1 => cases h; rfl
  | case2 c hhigh d t hlow ih =>
    obtain ⟨v, hv, rfl⟩ := Option.map_eq_some_iff.1 h
    rw [Text.utf16_cons, Text.utf16_cons, Text.utf16_cons, ih hv,
      pair_utf16 hhigh hlow, append_assoc]
  | case3 | case4 | case5 => cases h
  | case6 c t _ _ ih =>
    obtain ⟨v, hv, rfl⟩ := Option.map_eq_some_iff.1 h
    rw [Text.utf16_cons, Text.utf16_cons, ih hv]

theorem joinPairs?_getD_utf16 (t : Text) : ((joinPairs? t).getD t).utf16 = t.utf16 := by
  cases h : joinPairs? t with
  | none => rfl
  | some u => exact joinPairs?_utf16 h

/-- The value of a string literal is the string value of the grammar, code unit
    by code unit, if and only if no escape in it begins with three octal digits
    of which the first is above `3`. There is a value in any case. -/
theorem value_utf16_iff {quote : CodePoint} {body : Text} {units : List Nat}
    (h : StringCharacters quote body units) :
    ∃ t, value (quote :: body ++ [quote]) = .ok t ∧
      (t.utf16 = units ↔ ∀ tail ∈ body.escapeTails, isWideOctal tail = false) := by
  obtain ⟨t, ht, hlength, hunits⟩ := unescape_utf16 h
  have hbody : (quote :: body ++ [quote]).tail.dropLast = body := by simp
  refine ⟨(joinPairs? t).getD t, ?_, ?_⟩
  · rw [value, drop_one, hbody, ht]
    rfl
  · rw [joinPairs?_getD_utf16, ← Text.countP_escapeTails]
    refine ⟨fun heq => ?_, hunits⟩
    rw [heq] at hlength
    omega

/-- A surrogate pair in two escapes, an octal escape, and a null before a digit
    that is not octal. -/
theorem value_utf16_pair :
    StringCharacters (ofChar '"') (ofString "\\uD83D\\uDE00\\101\\08")
        [0xD83D, 0xDE00, 0x41, 0, 0x38] ∧
      ∃ t, value (ofChar '"' :: ofString "\\uD83D\\uDE00\\101\\08" ++
          [ofChar '"']) = .ok t ∧
        t.utf16 = [0xD83D, 0xDE00, 0x41, 0, 0x38] := by
  have hdigit : StringCharacters (ofChar '"') (ofString "8") [0x38] :=
    .char (by decide) (by decide) (by decide) (by decide) .nil
  have hnull : StringCharacters (ofChar '"') (ofString "\\08") [0, 0x38] :=
    .escape (.zero rfl) hdigit
  have hoctal : StringCharacters (ofChar '"')
      (ofString "\\101\\08") [0x41, 0, 0x38] :=
    .escape (.triple rfl rfl rfl) hnull
  have hlow : StringCharacters (ofChar '"') (ofString "\\uDE00\\101\\08")
      [0xDE00, 0x41, 0, 0x38] :=
    .escape (.common (@Escape.unicode _ (ofString "DE00") rfl rfl)) hoctal
  have h : StringCharacters (ofChar '"') (ofString "\\uD83D\\uDE00\\101\\08")
      [0xD83D, 0xDE00, 0x41, 0, 0x38] :=
    .escape (.common (@Escape.unicode _ (ofString "D83D") rfl rfl)) hlow
  obtain ⟨t, ht, hiff⟩ := value_utf16_iff h
  exact ⟨h, t, ht, hiff.2 (by decide)⟩

/-- The literal `"\400"` is a blank and a `0`, and is read as U+0100. -/
theorem value_wide_octal :
    StringCharacters '"' "\\400" [0x20, 0x30] ∧
      value "\"\\400\"" = .ok [⟨0x100, by decide⟩] ∧
      Text.utf16 [⟨0x100, by decide⟩] ≠ [0x20, 0x30] := by
  have hdigit : StringCharacters '"' (ofString "0") [0x30] :=
    .char (by decide) (by decide) (by decide) (by decide) .nil
  exact ⟨.escape (.highPair rfl rfl) hdigit, by decide +kernel, by decide⟩

end StringLiteral

end Resugar
