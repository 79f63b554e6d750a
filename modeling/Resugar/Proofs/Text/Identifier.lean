import Resugar.Proofs.Text.TagName

/-!
# The code points of identifiers

The language says by Unicode properties what may stand in an identifier
(`CodePoint.isIdentifierStart`, `CodePoint.isIdentifierPart`). Names are tested
for word code points instead (`CodePoint.isNamePart`), and a line feed after
them is overlooked. The two do not agree: most numerals that are no digits are
word code points and may not stand in an identifier. These, with one letter, are
*stray* (`CodePoint.isStray`).
-/

namespace Resugar

open List
open CodePoint (ofChar)

namespace CodePoint

/-! ## Tables -/

/-- The numerals that are letters (`Nl`), as ranges in increasing order. -/
def letterNumeralRanges : List (Nat × Nat) :=
  rangesFrom 0 [
    5870, 3, 2671, 35, 2, 4, 3710, 1, 25, 9, 14, 3, 30379, 10, 23120, 53, 460, 1, 8, 1, 134, 5,
    8234, 111]

/-- The numerals that are neither digits nor letters (`No`), as closed ranges in
    increasing order. -/
def otherNumeralRanges : List (Nat × Nat) :=
  rangesFrom 0 [
    178, 2, 5, 1, 2, 3, 2357, 6, 376, 6, 120, 3, 133, 7, 217, 7, 17, 9, 433, 10, 1077, 20, 1139, 10,
    480, 1, 1685, 1, 3, 6, 6, 10, 198, 16, 41, 1, 726, 60, 78, 22, 630, 30, 1385, 1, 1172, 4,
    138, 10, 30, 8, 1, 15, 32, 10, 39, 15, 30064, 6, 22737, 45, 65, 4, 17, 2, 341, 27, 36, 4,
    1332, 8, 25, 7, 39, 9, 75, 5, 22, 6, 160, 2, 2, 16, 2, 46, 64, 9, 52, 2, 30, 3, 75, 5, 104, 8,
    24, 8, 41, 7, 330, 6, 352, 31, 158, 10, 42, 4, 112, 7, 134, 20, 379, 20, 1349, 2, 430, 9,
    871, 19, 851, 21, 19334, 7, 798, 23, 25673, 20, 108, 25, 5454, 9, 929, 59, 1, 3, 1, 4, 76, 45,
    1, 15, 962, 13]

/-- The connectors (`Pc`), as closed ranges in increasing order. -/
def connectorRanges : List (Nat × Nat) := [
    (0x5F, 0x5F), (0x203F, 0x2040), (0x2054, 0x2054), (0xFE33, 0xFE34), (0xFE4D, 0xFE4F),
    (0xFF3F, 0xFF3F)]

/-- The combining marks (`Mn` and `Mc`), as ranges in increasing order. -/
def markRanges : List (Nat × Nat) :=
  rangesFrom 0 [
    768, 112, 275, 5, 265, 45, 1, 1, 1, 2, 1, 2, 1, 1, 72, 11, 48, 21, 16, 1, 101, 7, 2, 6, 2, 2,
    1, 4, 35, 1, 30, 27, 91, 11, 58, 9, 9, 1, 24, 4, 1, 9, 1, 3, 1, 5, 43, 3, 60, 8, 42, 24, 1, 33,
    54, 3, 1, 18, 1, 7, 10, 2, 29, 3, 56, 1, 1, 7, 2, 2, 2, 3, 9, 1, 10, 2, 26, 1, 2, 3, 56, 1,
    1, 5, 4, 2, 2, 3, 3, 1, 30, 2, 3, 1, 11, 3, 56, 1, 1, 8, 1, 3, 1, 3, 20, 2, 22, 6, 1, 3, 56, 1,
    1, 7, 2, 2, 2, 3, 7, 3, 10, 2, 30, 1, 59, 5, 3, 3, 1, 4, 9, 1, 40, 5, 55, 1, 1, 7, 1, 3, 1, 4,
    7, 2, 11, 2, 29, 3, 56, 1, 1, 7, 1, 3, 1, 4, 7, 2, 11, 2, 28, 4, 55, 2, 1, 7, 1, 3, 1, 4, 9, 1,
    10, 2, 29, 3, 70, 1, 4, 6, 1, 1, 1, 8, 18, 2, 61, 1, 2, 7, 12, 8, 98, 1, 2, 9, 11, 6, 74, 2,
    27, 1, 1, 1, 1, 1, 4, 2, 49, 20, 1, 2, 5, 11, 1, 36, 9, 1, 100, 20, 23, 4, 4, 3, 1, 3, 2, 7,
    3, 4, 13, 12, 1, 1, 10, 4, 703, 3, 946, 4, 28, 3, 29, 2, 30, 2, 64, 32, 9, 1, 45, 3, 1, 1,
    117, 2, 34, 1, 118, 12, 4, 12, 219, 5, 57, 10, 1, 29, 2, 1, 48, 14, 1, 16, 49, 5, 47, 17, 38, 9,
    12, 3, 30, 13, 56, 14, 48, 20, 152, 3, 1, 21, 4, 1, 6, 1, 2, 3, 198, 64, 720, 13, 4, 1, 3, 12,
    3070, 3, 141, 1, 96, 32, 554, 6, 105, 2, 30164, 1, 4, 10, 32, 2, 80, 2, 272, 1, 3, 1, 4, 1,
    23, 5, 4, 1, 83, 2, 50, 18, 26, 18, 13, 1, 38, 8, 25, 13, 44, 4, 47, 14, 36, 1, 67, 14, 12, 1,
    8, 2, 45, 3, 50, 1, 1, 3, 2, 2, 5, 2, 1, 1, 41, 5, 5, 2, 236, 8, 1, 2, 20272, 1, 737, 16,
    16, 16, 973, 1, 226, 1, 149, 5, 1670, 3, 1, 2, 5, 4, 40, 3, 4, 1, 165, 2, 573, 4, 387, 2,
    153, 11, 49, 4, 122, 3, 53, 15, 41, 1, 2, 2, 10, 4, 45, 11, 7, 1, 61, 3, 36, 14, 16, 2, 44, 1,
    12, 3, 48, 14, 8, 4, 1, 2, 92, 12, 6, 1, 160, 12, 21, 4, 55, 2, 1, 7, 2, 2, 2, 3, 9, 1, 10, 2,
    2, 7, 3, 5, 192, 18, 23, 1, 81, 20, 235, 7, 2, 9, 27, 2, 82, 17, 106, 13, 101, 15, 256, 15,
    245, 6, 1, 2, 2, 4, 1, 1, 1, 2, 141, 7, 2, 7, 3, 1, 28, 10, 40, 7, 1, 4, 8, 1, 9, 11, 46, 16,
    405, 8, 1, 8, 82, 22, 1, 14, 122, 6, 3, 1, 1, 2, 1, 7, 1, 1, 66, 5, 1, 2, 1, 5, 347, 4,
    19449, 5, 59, 7, 1048, 1, 1, 55, 7, 4, 81, 1, 11, 2, 19627, 2, 4705, 46, 2, 23, 542, 5, 3, 6,
    8, 8, 2, 7, 30, 4, 148, 3, 1979, 55, 4, 50, 8, 1, 14, 1, 22, 5, 1, 15, 1360, 7, 1, 17, 2, 7,
    1, 2, 1, 5, 261, 7, 375, 1, 61, 4, 1504, 7, 109, 7, 792501, 240]

/-- What else may begin an identifier (`Other_ID_Start`). -/
def otherStartRanges : List (Nat × Nat) :=
  [(0x1885, 0x1886), (0x2118, 0x2118), (0x212E, 0x212E), (0x309B, 0x309C)]

/-- What else may stand in an identifier (`Other_ID_Continue`). -/
def otherPartRanges : List (Nat × Nat) :=
  [(0xB7, 0xB7), (0x387, 0x387), (0x1369, 0x1371), (0x19DA, 0x19DA)]

/-! ## Classes -/

/-- The code points that may begin an identifier (`ID_Start`, `$` and `_`). -/
def isIdentifierStart (c : CodePoint) : Bool :=
  (c.val != 0x2E2F && c.isLetter) || c.inRanges letterNumeralRanges ||
    c.inRanges otherStartRanges || c == '$' || c == '_'

/-- The code points of identifiers (`ID_Continue`, `$` and the two joiners). -/
def isIdentifierPart (c : CodePoint) : Bool :=
  c.isIdentifierStart || c.isDecimal || c.inRanges markRanges || c.inRanges connectorRanges ||
    c.inRanges otherPartRanges || c.val == 0x200C || c.val == 0x200D

/-- The word code points that may not stand in an identifier. -/
def isStray (c : CodePoint) : Bool :=
  c.val == 0x2E2F || (c.inRanges otherNumeralRanges && !c.inRanges otherPartRanges)

/-- White space, the mark of the byte order among it. -/
def whiteSpaceRanges : List (Nat × Nat) :=
  spaceRanges ++ [(0xFEFF, 0xFEFF)]

/-- White space of all scripts. -/
def isWhiteSpace (c : CodePoint) : Bool :=
  c.inRanges whiteSpaceRanges

end CodePoint

namespace Text

/-- An ASCII letter, `_` or `$`, and then only parts of identifiers. -/
def isNameToken : Text → Bool
  | [] => false
  | c :: t => c.isNameStart && t.all CodePoint.isIdentifierPart

/-- An identifier that may have `-` in it, as in the name of an attribute. -/
def isAttributePiece : Text → Bool
  | [] => false
  | c :: t => c.isIdentifierStart && t.all fun d => d.isIdentifierPart || d == '-'

/-- The names of attributes: such an identifier, or two around a `:`. -/
def isAttributeToken (t : Text) : Bool :=
  (t.splitOn ':').length ≤ 2 && (t.splitOn ':').all isAttributePiece

/-- Whether a text has nothing stray in it, and no line feed at its end. -/
def isClean (t : Text) : Bool :=
  t.getLast? != some (ofChar '\n') && t.all fun c => !c.isStray

/-- Whether an identifier may begin as a text does. -/
def startsIdentifier (t : Text) : Bool :=
  t.head?.any CodePoint.isIdentifierStart

/-- What may stand between the parts of the name of an attribute. -/
def attributeMarks : Text :=
  ['-', ':'].map ofChar

end Text

namespace CodePoint

/-! ## Ranges -/

variable {c : CodePoint} {rs ss : List (Nat × Nat)} {steps : Nat}

/-- Whether ranges are in the order of their first numbers. -/
def areOrdered : List (Nat × Nat) → Bool
  | r :: s :: rs => Nat.ble r.1 s.1 && areOrdered (s :: rs)
  | _ => true

theorem pairwise_of_areOrdered (h : areOrdered rs = true) : rs.Pairwise fun r s => r.1 ≤ s.1 := by
  have htrans : IsTrans (Nat × Nat) fun r s => r.1 ≤ s.1 := ⟨fun _ _ _ => Nat.le_trans⟩
  rw [← isChain_iff_pairwise]
  fun_induction areOrdered rs with
  | case1 r s rs ih =>
    rw [Bool.and_eq_true, Nat.ble_eq] at h
    exact .cons_cons h.1 (ih h.2)
  | case2 rs hrs =>
    cases rs with
    | nil => exact .nil
    | cons r rs =>
      cases rs with
      | nil => exact .singleton r
      | cons s rs => exact absurd rfl (hrs r s rs)

/-- Whether no range of one list meets a range of another one. Both have to be
    ordered, and are gone through side by side, in a bounded number of steps. -/
def areApart : Nat → (rs ss : List (Nat × Nat)) → Bool
  | 0, _, _ => false
  | _ + 1, [], _ => true
  | _ + 1, _ :: _, [] => true
  | steps + 1, r :: rs, s :: ss =>
    bif Nat.blt r.2 s.1 then areApart steps rs (s :: ss)
      else Nat.blt s.2 r.1 && areApart steps (r :: rs) ss

/-- Ranges that pass the test do not meet. -/
theorem lt_of_areApart (hrs : rs.Pairwise fun r s => r.1 ≤ s.1)
    (hss : ss.Pairwise fun r s => r.1 ≤ s.1) (h : areApart steps rs ss = true) :
    ∀ r ∈ rs, ∀ s ∈ ss, r.2 < s.1 ∨ s.2 < r.1 := by
  induction steps generalizing rs ss with
  | zero => cases h
  | succ steps ih =>
    cases rs with
    | nil => exact forall_mem_nil _
    | cons r rs =>
      cases ss with
      | nil => exact fun _ _ => forall_mem_nil _
      | cons s ss =>
        rw [areApart, cond_eq_ite] at h
        obtain ⟨hr, hrs'⟩ := pairwise_cons.1 hrs
        obtain ⟨hs, hss'⟩ := pairwise_cons.1 hss
        split_ifs at h with hbelow
        · -- the first range of one list is below the whole other list
          rw [Nat.blt_eq] at hbelow
          refine forall_mem_cons.2 ⟨?_, ih hrs' hss h⟩
          exact forall_mem_cons.2
            ⟨.inl hbelow, fun s' hs' => .inl (Nat.lt_of_lt_of_le hbelow (hs s' hs'))⟩
        · rw [Bool.and_eq_true, Nat.blt_eq] at h
          intro r' hr'
          refine forall_mem_cons.2 ⟨.inr ?_, ih hrs hss' h.2 r' hr'⟩
          obtain rfl | hr' := mem_cons.1 hr'
          · exact h.1
          · exact Nat.lt_of_lt_of_le h.1 (hr r' hr')

/-- A code point is in at most one of two lists that are apart. -/
theorem inRanges_of_areApart (hrs : areOrdered rs = true) (hss : areOrdered ss = true)
    (h : areApart steps rs ss = true) (hc : c.inRanges rs = true) : c.inRanges ss = false := by
  obtain ⟨r, hr, hcr⟩ := any_eq_true.1 hc
  refine any_eq_false.2 fun s hs hcs => ?_
  have hapart :=
    lt_of_areApart (pairwise_of_areOrdered hrs) (pairwise_of_areOrdered hss) h r hr s hs
  rw [Bool.and_eq_true, decide_eq_true_eq, decide_eq_true_eq] at hcr hcs
  omega

/-- Two lists of ranges put together in order, in a bounded number of steps. -/
def merged : Nat → (rs ss : List (Nat × Nat)) → List (Nat × Nat)
  | 0, _, _ => []
  | _ + 1, [], ss => ss
  | _ + 1, r :: rs, [] => r :: rs
  | steps + 1, r :: rs, s :: ss =>
    bif Nat.ble r.1 s.1 then r :: merged steps rs (s :: ss) else s :: merged steps (r :: rs) ss

/-- What is in the lists put together is in one of them. -/
theorem mem_or_mem_of_mem_merged {q : Nat × Nat} (h : q ∈ merged steps rs ss) :
    q ∈ rs ∨ q ∈ ss := by
  induction steps generalizing rs ss with
  | zero => cases h
  | succ steps ih =>
    cases rs with
    | nil => exact .inr h
    | cons r rs =>
      cases ss with
      | nil => exact .inl h
      | cons s ss =>
        rw [merged, cond_eq_ite] at h
        split_ifs at h
        · obtain rfl | h := mem_cons.1 h
          · exact .inl mem_cons_self
          · exact (ih h).imp_left (mem_cons_of_mem r)
        · obtain rfl | h := mem_cons.1 h
          · exact .inr mem_cons_self
          · exact (ih h).imp_right (mem_cons_of_mem s)

theorem inRanges_merged (h : c.inRanges (merged steps rs ss) = true) :
    c.inRanges rs = true ∨ c.inRanges ss = true := by
  obtain ⟨q, hq, hcq⟩ := any_eq_true.1 h
  exact (mem_or_mem_of_mem_merged hq).imp (fun hq => any_eq_true.2 ⟨q, hq, hcq⟩) fun hq =>
    any_eq_true.2 ⟨q, hq, hcq⟩

/-- Whether the ranges of one list are taken up by those of another one. Both
    have to be ordered. -/
def areCovered : (rs ss : List (Nat × Nat)) → Bool
  | [], _ => true
  | _ :: _, [] => false
  | r :: rs, s :: ss =>
    bif Nat.ble s.1 r.1 && Nat.ble r.1 s.2 then
      bif Nat.ble r.2 s.2 then areCovered rs ss else areCovered ((s.2 + 1, r.2) :: rs) ss
    else areCovered (r :: rs) ss

/-- A code point in one list is in the other one, which takes it up. -/
theorem inRanges_of_areCovered (h : areCovered rs ss = true) (hc : c.inRanges rs = true) :
    c.inRanges ss = true := by
  induction ss generalizing rs with
  | nil =>
    cases rs with
    | nil => exact hc
    | cons => cases h
  | cons s ss ih =>
    cases rs with
    | nil => cases hc
    | cons r rs =>
      rw [areCovered, cond_eq_ite, cond_eq_ite] at h
      simp only [inRanges, any_cons, Bool.or_eq_true, Bool.and_eq_true,
        decide_eq_true_eq] at hc ih ⊢
      by_cases hs : s.1 ≤ c.val ∧ c.val ≤ s.2
      · exact .inl hs
      refine .inr ?_
      split_ifs at h with hfirst hlast
      · rw [Bool.and_eq_true, Nat.ble_eq, Nat.ble_eq] at hfirst
        rw [Nat.ble_eq] at hlast
        exact ih h (hc.resolve_left (by omega))
      · -- what is left of the range begins after the other one
        rw [Bool.and_eq_true, Nat.ble_eq, Nat.ble_eq] at hfirst
        refine ih h ?_
        rw [any_cons, Bool.or_eq_true, Bool.and_eq_true, decide_eq_true_eq, decide_eq_true_eq]
        exact hc.imp_left fun hr => by omega
      · refine ih h ?_
        rw [any_cons, Bool.or_eq_true, Bool.and_eq_true, decide_eq_true_eq, decide_eq_true_eq]
        exact hc

/-- The decimal digits as ranges. -/
def decimalRanges : List (Nat × Nat) :=
  decimalZeros.map fun z => (z, z + 9)

theorem isDecimal_eq (h : 128 ≤ c.val) : c.isDecimal = c.inRanges decimalRanges := by
  rw [isDecimal, if_neg (by omega), decimalValue?, Option.isSome_map, isSome_find?, inRanges,
    decimalRanges, any_map]
  congr 1
  funext z
  simp [Nat.lt_succ_iff]

/-! ## Parts of names -/

theorem isIdentifierStart_of_isNameStart (h : c.isNameStart = true) :
    c.isIdentifierStart = true := by
  obtain ⟨hletter, hascii⟩ | rfl | rfl := isNameStart_cases h
  · have hne : (c.val != 0x2E2F) = true := by
      rw [bne_iff_ne]
      omega
    rw [isIdentifierStart, isLetter, if_pos hascii, hletter, hne]
    rfl
  · rfl
  · rfl

theorem isIdentifierPart_of_isIdentifierStart (h : c.isIdentifierStart = true) :
    c.isIdentifierPart = true := by
  rw [isIdentifierPart, h]
  rfl

/-- The parts of names in ASCII, and those beyond. -/
theorem isNamePart_cases (h : c.isNamePart = true) :
    (c.val < 128 ∧ (c.isNameStart = true ∨ c.isAsciiDigit = true)) ∨
      (128 ≤ c.val ∧ (c.inRanges letterRanges = true ∨ c.inRanges numeralRanges = true)) := by
  rw [isNamePart, Bool.or_eq_true, beq_iff_eq] at h
  obtain h | rfl := h
  · rw [isWord] at h
    split at h
    · rename_i hascii
      simp only [Bool.or_eq_true, beq_iff_eq] at h
      obtain (h | h) | h := h
      · exact .inl ⟨hascii, .inl (by rw [isNameStart, h]; rfl)⟩
      · exact .inl ⟨hascii, .inr h⟩
      · have hc : c = '_' := Fin.ext h
        exact .inl ⟨hascii, .inl (hc ▸ rfl)⟩
    · exact .inr ⟨by omega, by simpa using h⟩
  · exact .inl ⟨by decide, .inl rfl⟩

/-! ## What the tables are checked for -/

/-- The code points of an identifier but for a table of others, and ASCII. -/
def partTables : List (List (Nat × Nat)) :=
  [[(0, 127)], letterRanges, letterNumeralRanges, otherStartRanges, decimalRanges, markRanges,
    connectorRanges, [(0x200C, 0x200D)]]

/-- The letters and digits of ASCII as ranges. -/
def asciiRanges : List (Nat × Nat) :=
  [(48, 57), (65, 90), (97, 122)]

/-- The letters and numerals. -/
def wordTables : List (List (Nat × Nat)) :=
  [asciiRanges, letterRanges, numeralRanges]

/-- The numerals of identifiers and the others, in order. -/
def numeralCover : List (Nat × Nat) :=
  merged 200 otherNumeralRanges (merged 100 letterNumeralRanges decimalRanges)

/-- How the tables stand to each other, and to a few code points. -/
structure TablesFit : Prop where
  others_ordered : areOrdered otherNumeralRanges = true
  others_apart : (partTables.all fun table => areOrdered table &&
    areApart 800 otherNumeralRanges table) = true
  spaces_ordered : areOrdered whiteSpaceRanges = true
  spaces_apart : (wordTables.all fun table => areOrdered table &&
    areApart 800 whiteSpaceRanges table) = true
  numerals_covered : areCovered numeralRanges numeralCover = true
  tilde : isIdentifierPart ⟨0x2E2F, by decide⟩ = !isStray ⟨0x2E2F, by decide⟩
  lineFeed : isIdentifierPart '\n' = false
  marks : isStray '-' = false ∧ isStray ':' = false

-- the checks go through whole tables, so they are made here, once and in one place
theorem tablesFit : TablesFit where
  others_ordered := by decide +kernel
  others_apart := by decide +kernel
  spaces_ordered := by decide +kernel
  spaces_apart := by decide +kernel
  numerals_covered := by decide +kernel
  tilde := by decide +kernel
  lineFeed := by decide +kernel
  marks := by decide +kernel

/-- Numerals are decimal digits, letters or others. -/
theorem numeralRanges_covered (h : c.inRanges numeralRanges = true) :
    c.inRanges decimalRanges = true ∨ c.inRanges letterNumeralRanges = true ∨
      c.inRanges otherNumeralRanges = true := by
  obtain hc | hc :=
    inRanges_merged (inRanges_of_areCovered (TablesFit.numerals_covered tablesFit) h)
  · exact .inr (.inr hc)
  · exact (inRanges_merged hc).symm.imp_right .inl

/-- Other numerals are in no table of identifiers. -/
theorem inRanges_partTables (h : c.inRanges otherNumeralRanges = true) :
    ∀ table ∈ partTables, c.inRanges table = false := by
  intro table htable
  obtain ⟨hordered, hapart⟩ :=
    Bool.and_eq_true_iff.1 (all_eq_true.1 (TablesFit.others_apart tablesFit) table htable)
  exact inRanges_of_areApart (TablesFit.others_ordered tablesFit) hordered hapart h

/-- Letters and numerals are no white space. -/
theorem isWhiteSpace_of_mem_wordTables {table : List (Nat × Nat)} (htable : table ∈ wordTables)
    (h : c.inRanges table = true) : c.isWhiteSpace = false := by
  obtain ⟨hordered, hapart⟩ :=
    Bool.and_eq_true_iff.1 (all_eq_true.1 (TablesFit.spaces_apart tablesFit) table htable)
  refine Bool.eq_false_iff.2 fun hspace => ?_
  rw [inRanges_of_areApart (TablesFit.spaces_ordered tablesFit) hordered hapart hspace] at h
  cases h

/-! ## Parts of names in identifiers -/

/-- What stands in a table of identifiers is not stray. -/
theorem isStray_of_mem_partTables {table : List (Nat × Nat)} (hne : c.val ≠ 0x2E2F)
    (htable : table ∈ partTables) (h : c.inRanges table = true) : c.isStray = false := by
  have hother : c.inRanges otherNumeralRanges = false := Bool.eq_false_iff.2 fun hother => by
    rw [inRanges_partTables hother table htable] at h
    cases h
  rw [isStray, hother, beq_eq_false_iff_ne.2 hne]
  rfl

/-- Other numerals are no part of an identifier, but for a few. -/
theorem isIdentifierPart_of_otherNumeral (h : c.inRanges otherNumeralRanges = true)
    (hpart : c.inRanges otherPartRanges = false) : c.isIdentifierPart = false := by
  have htables := inRanges_partTables h
  simp only [partTables, forall_mem_cons] at htables
  obtain ⟨hascii, hletter, hnumeral, hstart, hdecimal, hmark, hconnector, hjoiner, -⟩ := htables
  have hbeyond : 128 ≤ c.val := by
    simp only [inRanges, any_cons, any_nil, Bool.or_false, Bool.and_eq_false_iff,
      decide_eq_false_iff_not] at hascii
    omega
  have hjoiners : c.val ≠ 0x200C ∧ c.val ≠ 0x200D := by
    simp only [inRanges, any_cons, any_nil, Bool.or_false, Bool.and_eq_false_iff,
      decide_eq_false_iff_not] at hjoiner
    omega
  have hdollar : c ≠ '$' := by
    rintro rfl
    exact absurd hbeyond (by decide)
  have hunderscore : c ≠ '_' := by
    rintro rfl
    exact absurd hbeyond (by decide)
  rw [isIdentifierPart, isIdentifierStart, isLetter, if_neg (by omega), hletter, hnumeral, hstart,
    isDecimal_eq hbeyond, hdecimal, hmark, hconnector, hpart]
  simp [hdollar, hunderscore, hjoiners]

/-- A part of a name may stand in an identifier unless it is stray. -/
theorem isIdentifierPart_of_isNamePart (h : c.isNamePart = true) :
    c.isIdentifierPart = !c.isStray := by
  by_cases hne : c.val = 0x2E2F
  · obtain rfl : c = ⟨0x2E2F, by decide⟩ := Fin.ext hne
    exact TablesFit.tilde tablesFit
  obtain ⟨hascii, hc⟩ | ⟨hbeyond, hc | hc⟩ := isNamePart_cases h
  · -- in ASCII
    have hrange : c.inRanges [(0, 127)] = true := by
      simp only [inRanges, any_cons, any_nil, Bool.or_false,
        Bool.and_eq_true, decide_eq_true_eq]
      omega
    rw [isStray_of_mem_partTables hne (by decide) hrange]
    obtain hc | hc := hc
    · exact isIdentifierPart_of_isIdentifierStart (isIdentifierStart_of_isNameStart hc)
    · rw [isIdentifierPart, isDecimal, if_pos hascii, hc]
      simp
  · rw [isStray_of_mem_partTables hne (by simp [partTables]) hc]
    refine isIdentifierPart_of_isIdentifierStart ?_
    rw [isIdentifierStart, isLetter, if_neg (by omega), hc, bne_iff_ne.2 hne]
    rfl
  -- beyond, decimal digits and letters that are numerals may stand there, and
  -- of the other numerals a few
  obtain hc | hc | hc := numeralRanges_covered hc
  · rw [isStray_of_mem_partTables hne (by simp [partTables]) hc, isIdentifierPart,
      isDecimal_eq hbeyond, hc]
    simp
  · rw [isStray_of_mem_partTables hne (by simp [partTables]) hc]
    refine isIdentifierPart_of_isIdentifierStart ?_
    rw [isIdentifierStart, hc]
    simp
  · cases hpart : c.inRanges otherPartRanges with
    | true =>
      rw [isIdentifierPart, isStray, hpart, beq_eq_false_iff_ne.2 hne]
      simp
    | false =>
      rw [isIdentifierPart_of_otherNumeral hc hpart, isStray, hc, hpart]
      simp

theorem inRanges_asciiRanges (h : c.isAsciiLetter = true ∨ c.isAsciiDigit = true) :
    c.inRanges asciiRanges = true := by
  simp only [isAsciiLetter, isAsciiDigit, Bool.or_eq_true, Bool.and_eq_true, decide_eq_true_eq] at h
  simp only [inRanges, asciiRanges, any_cons, any_nil, Bool.or_false, Bool.or_eq_true,
    Bool.and_eq_true, decide_eq_true_eq]
  omega

theorem isWhiteSpace_of_isNamePart (h : c.isNamePart = true) : c.isWhiteSpace = false := by
  obtain ⟨-, hc | hc⟩ | ⟨-, hc | hc⟩ := isNamePart_cases h
  · rw [isNameStart, Bool.or_eq_true, Bool.or_eq_true, beq_iff_eq, beq_iff_eq] at hc
    obtain (hc | rfl) | rfl := hc
    · exact isWhiteSpace_of_mem_wordTables mem_cons_self (inRanges_asciiRanges (.inl hc))
    · decide
    · decide
  · exact isWhiteSpace_of_mem_wordTables mem_cons_self (inRanges_asciiRanges (.inr hc))
  · exact isWhiteSpace_of_mem_wordTables (by simp [wordTables]) hc
  · exact isWhiteSpace_of_mem_wordTables (by simp [wordTables]) hc

end CodePoint

/-! ## Texts that pass for names -/

namespace Text

variable {t : Text}

/-- Of the texts of parts of names and of marks, the clean ones are those of
    parts of identifiers and of marks. -/
theorem isClean_iff (marks : Text)
    (hmarks : ∀ m ∈ marks, m.isStray = false ∧ m ≠ ofChar '\n')
    (h : ∀ c ∈ t.dropFinalNewline, c.isNamePart = true ∨ c ∈ marks) :
    t.isClean = true ↔ ∀ c ∈ t, c.isIdentifierPart = true ∨ c ∈ marks := by
  have hfeed : (ofChar '\n').isIdentifierPart = false ∧
      (ofChar '\n').isNamePart = false :=
    ⟨CodePoint.TablesFit.lineFeed CodePoint.tablesFit, by decide⟩
  have hmark : ofChar '\n' ∉ marks := fun hm => (hmarks _ hm).2 rfl
  obtain hdrop | hdrop := t.dropFinalNewline_cases
  · rw [hdrop] at h
    have hlast : (t.getLast? != some (ofChar '\n')) = true := bne_iff_ne.2 fun hlast => by
      obtain hc | hc := h _ (mem_of_getLast? hlast)
      · rw [hfeed.2] at hc
        cases hc
      · exact hmark hc
    rw [isClean, hlast, Bool.true_and, all_eq_true]
    refine forall₂_congr fun c hc => ?_
    obtain hpart | hc := h c hc
    · rw [CodePoint.isIdentifierPart_of_isNamePart hpart]
      refine ⟨.inl, ?_⟩
      rintro (hc | hc)
      · exact hc
      · rw [(hmarks c hc).1]
        rfl
    · simp [hc, (hmarks c hc).1]
  · -- a line feed at the end is neither clean nor part of an identifier
    have hlast : t.getLast? = some (ofChar '\n') := by rw [hdrop, getLast?_concat]
    have hmem : ofChar '\n' ∈ t := mem_of_getLast? hlast
    rw [isClean, hlast]
    simp only [bne_self_eq_false, Bool.false_and, Bool.false_eq_true, false_iff]
    intro hall
    obtain hc | hc := hall _ hmem
    · rw [hfeed.1] at hc
      cases hc
    · exact hmark hc

/-- A text that counts as an identifier is made of parts of names, but for a
    line feed at its end. -/
theorem isNamePart_of_isIdentifier (h : t.isIdentifier = true) :
    ∃ c rest, t.dropFinalNewline = c :: rest ∧ c.isNameStart = true ∧ ∀ d ∈ c :: rest,
      d.isNamePart = true := by
  rw [isIdentifier, Bool.and_eq_true] at h
  cases hdrop : t.dropFinalNewline with
  | nil =>
    rw [hdrop] at h
    cases h.1
  | cons c rest =>
    rw [hdrop, isSpelledAsName, Bool.and_eq_true, all_eq_true] at h
    obtain ⟨⟨hc, hrest⟩, -⟩ := h
    exact ⟨c, rest, rfl, hc, forall_mem_cons.2 ⟨CodePoint.isNamePart_of_isNameStart hc, hrest⟩⟩

/-- A text begins as it does without a line feed at its end, if there is more
    than that in it. -/
theorem eq_cons_of_dropFinalNewline {c : CodePoint} {rest : Text}
    (h : t.dropFinalNewline = c :: rest) : ∃ rest', t = c :: rest' := by
  obtain hdrop | hdrop := t.dropFinalNewline_cases
  · exact ⟨rest, hdrop ▸ h⟩
  · rw [h] at hdrop
    exact ⟨_, hdrop⟩

/-- A text that passes for an identifier is read as one exactly if clean. -/
theorem isNameToken_iff (h : t.isIdentifier = true) : t.isNameToken = true ↔ t.isClean = true := by
  obtain ⟨c, rest, hdrop, hc, hparts⟩ := isNamePart_of_isIdentifier h
  have hclean :=
    isClean_iff (t := t) [] (forall_mem_nil _) (fun d hd => .inl (hparts d (hdrop ▸ hd)))
  obtain ⟨rest', rfl⟩ := eq_cons_of_dropFinalNewline hdrop
  have hpart :=
    CodePoint.isIdentifierPart_of_isIdentifierStart (CodePoint.isIdentifierStart_of_isNameStart hc)
  simp [hclean, isNameToken, hc, hpart]

/-! ## The names of attributes -/

theorem attributeMarks_plain : ∀ m ∈ attributeMarks,
    m.isStray = false ∧ m ≠ '\n' ∧ m.isWhiteSpace = false := by
  intro m hm
  obtain rfl | rfl : m = '-' ∨ m = ':' := by
    simpa [attributeMarks] using hm
  · exact ⟨(CodePoint.TablesFit.marks CodePoint.tablesFit).1, by decide, by decide⟩
  · exact ⟨(CodePoint.TablesFit.marks CodePoint.tablesFit).2, by decide, by decide⟩

theorem isNamePart_of_continuesAttribute {afterMark : Bool}
    (h : continuesAttribute afterMark t = true) :
    ∀ c ∈ t, c.isNamePart = true ∨ c ∈ attributeMarks := by
  fun_induction continuesAttribute afterMark t with
  | case1 => exact forall_mem_nil _
  | case2 afterMark c t hc ih => exact forall_mem_cons.2 ⟨.inl hc, ih h⟩
  | case3 afterMark c t hc ih =>
    simp only [Bool.and_eq_true, Bool.or_eq_true, beq_iff_eq] at h
    exact forall_mem_cons.2 ⟨.inr (by simpa [attributeMarks] using h.1.1), ih h.2⟩

/-- The name of an attribute is made of parts of names and of marks, but for a
    line feed at its end. -/
theorem isNamePart_of_isAttributeName (h : t.isAttributeName = true) :
    ∃ c rest, t.dropFinalNewline = c :: rest ∧ c.isNameStart = true ∧
      ∀ d ∈ c :: rest, d.isNamePart = true ∨ d ∈ attributeMarks := by
  rw [isAttributeName] at h
  cases hdrop : t.dropFinalNewline with
  | nil =>
    rw [hdrop] at h
    cases h
  | cons c rest =>
    rw [hdrop] at h
    obtain ⟨hc, hrest⟩ := Bool.and_eq_true_iff.1 h
    exact ⟨c, rest, rfl, hc, forall_mem_cons.2
      ⟨.inl (CodePoint.isNamePart_of_isNameStart hc), isNamePart_of_continuesAttribute hrest⟩⟩

/-- The name of an attribute has white space only as a final line feed. -/
theorem isWhiteSpace_iff (h : t.isAttributeName = true) :
    (∀ c ∈ t, c.isWhiteSpace = false) ↔ t.getLast? ≠ some (ofChar '\n') := by
  obtain ⟨c, rest, hdrop, -, hparts⟩ := isNamePart_of_isAttributeName h
  rw [← hdrop] at hparts
  refine ⟨fun hall hlast => ?_, fun hlast d hd => ?_⟩
  · exact absurd (hall _ (mem_of_getLast? hlast)) (by decide)
  rw [dropFinalNewline, if_neg hlast] at hparts
  obtain hd | hd := hparts d hd
  · exact CodePoint.isWhiteSpace_of_isNamePart hd
  · exact (attributeMarks_plain d hd).2.2

theorem flatten_splitOn (sep : CodePoint) (t : Text) :
    (splitOn sep t).flatten = t.filter (· ≠ sep) := by
  induction t with
  | nil => rfl
  | cons c t ih =>
    rw [splitOn]
    by_cases hc : c = sep
    · simp [hc, ih]
    · rw [if_neg hc, filter_cons_of_pos (by simpa using hc), ← ih]
      cases splitOn sep t <;> rfl

theorem mem_splitOn {sep d : CodePoint} :
    (∃ piece ∈ splitOn sep t, d ∈ piece) ↔ d ∈ t ∧ d ≠ sep := by
  rw [← mem_flatten, flatten_splitOn, mem_filter, decide_eq_true_eq]

theorem splitOn_cons_of_ne {sep c : CodePoint} (hc : c ≠ sep) (t : Text) :
    ∃ piece rest, splitOn sep (c :: t) = (c :: piece) :: rest := by
  rw [splitOn, if_neg hc]
  split
  · exact ⟨_, _, rfl⟩
  · exact ⟨_, _, rfl⟩

/-- Such an identifier begins like one, and has parts of identifiers and `-` in
    it. -/
theorem isAttributePiece_iff : t.isAttributePiece = true ↔
    t.startsIdentifier = true ∧ ∀ c ∈ t, c.isIdentifierPart = true ∨ c = '-' := by
  cases t with
  | nil => simp [isAttributePiece, startsIdentifier]
  | cons c t =>
    rw [isAttributePiece, Bool.and_eq_true, forall_mem_cons, all_eq_true]
    simp only [Bool.or_eq_true, beq_iff_eq]
    refine and_congr_right fun hc => ?_
    exact (and_iff_right (.inl (CodePoint.isIdentifierPart_of_isIdentifierStart hc))).symm

/-- A text that passes for the name of an attribute is read as one if and only
    if it is clean, has at most one `:` in it and goes on with what may begin an
    identifier there. -/
theorem isAttributeToken_iff (h : t.isAttributeName = true) :
    t.isAttributeToken = true ↔ t.isClean = true ∧ (splitOn ':' t).length ≤ 2 ∧
      ∀ piece ∈ (splitOn ':' t).tail, piece.startsIdentifier = true := by
  obtain ⟨c, rest, hdrop, hc, hparts⟩ := isNamePart_of_isAttributeName h
  have hclean := isClean_iff (t := t) attributeMarks
    (fun m hm => ⟨(attributeMarks_plain m hm).1, (attributeMarks_plain m hm).2.1⟩)
    (fun d hd => hparts d (hdrop ▸ hd))
  have hpieces : (∀ piece ∈ splitOn ':' t, ∀ d ∈ piece, d.isIdentifierPart = true ∨
      d = '-') ↔ t.isClean = true := by
    rw [hclean]
    constructor
    · intro h d hd
      by_cases hcolon : d = ':'
      · exact .inr (by simp [attributeMarks, hcolon])
      · obtain ⟨piece, hpiece, hd⟩ := mem_splitOn.2 ⟨hd, hcolon⟩
        exact (h piece hpiece d hd).imp_right fun hdash => by simp [attributeMarks, hdash]
    · intro h piece hpiece d hd
      obtain ⟨hd, hcolon⟩ := mem_splitOn.1 ⟨piece, hpiece, hd⟩
      exact (h d hd).imp_right fun hmark => by simpa [attributeMarks, hcolon] using hmark
  have hstarts : (∀ piece ∈ splitOn ':' t, piece.startsIdentifier = true) ↔
      ∀ piece ∈ (splitOn ':' t).tail, piece.startsIdentifier = true := by
    -- the first piece begins as the whole name does
    obtain ⟨rest', rfl⟩ := eq_cons_of_dropFinalNewline hdrop
    have hcolon : c ≠ ':' := by
      rintro rfl
      exact absurd hc (by decide)
    obtain ⟨piece, rest, hsplit⟩ := splitOn_cons_of_ne hcolon rest'
    rw [hsplit, forall_mem_cons, tail_cons]
    exact and_iff_right (CodePoint.isIdentifierStart_of_isNameStart hc)
  rw [isAttributeToken, Bool.and_eq_true, decide_eq_true_eq, all_eq_true]
  simp only [isAttributePiece_iff, forall_and]
  rw [hpieces, hstarts]
  tauto

end Text

end Resugar
