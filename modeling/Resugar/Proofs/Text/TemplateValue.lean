import Resugar.Printer.Print
import Resugar.Proofs.Text.StringValue

/-!
# The cooked values of template texts

A piece of a template may go over several lines. The grammar says which code
units it gives, its *cooked value*: line ends give a line feed, whichever way
they are spelled, and a backslash takes them out.

A printed template stands on one line. Line feeds are replaced by escapes, with
the carriage returns before them (`Text.foldLines`). That gives the same code
unit, unless a backslash stands before: it escapes the backslash of the escape,
and a backslash and an `n` are left where the literal had nothing. A carriage
return alone is not replaced, and stays a line end that can be escaped.
-/

namespace Resugar

open List
open CodePoint (ofChar)

namespace StringLiteral

open Text

/-! ## The grammar -/

/-- The code unit that a line end gives in a template. -/
def lineBreakUnit : Text → Nat
  | [c] => if c.val = 0x0D then 0x0A else c.val
  | _ => 0x0A

/-- One character of a template, before `rest`, with the units `units`. -/
inductive TemplateCharacter : Text → Text → List Nat → Prop where
  | char {rest : Text} {c : CodePoint} :
    c.val ≠ 0x60 → c ≠ ofChar '\\' → c ≠ ofChar '$' → isLineEnd c = false →
    TemplateCharacter [c] rest c.utf16
  | dollar {rest : Text} :
    rest.head? ≠ some (ofChar '\x7b') →
      TemplateCharacter [ofChar '$'] rest [0x24]
  | lineBreak {e rest : Text} : LineBreak e rest → TemplateCharacter e rest [lineBreakUnit e]
  | continuation {e rest : Text} :
    LineBreak e rest → TemplateCharacter (ofChar '\\' :: e) rest []
  | escape {e rest : Text} {units : List Nat} :
    Escape e rest units → TemplateCharacter (ofChar '\\' :: e) rest units

/-- A piece of a template, and its cooked value. -/
inductive TemplateCharacters : Text → List Nat → Prop where
  | nil : TemplateCharacters [] []
  | cons {e rest : Text} {here units : List Nat} :
    TemplateCharacter e rest here → TemplateCharacters rest units →
      TemplateCharacters (e ++ rest) (here ++ units)

/-! ## One value at most -/

/-- The first character of a template: its code units and its length. -/
def firstCharacter? : Text → Option (List Nat × Nat)
  | [] => none
  | c :: t =>
    if c = '\\' then
      match escape? t with
      | some (.ok value, taken) => some (value.utf16, taken + 1)
      | _ => none
    else if c.val = 0x0D then some ([0x0A], if t.head? = some (ofChar '\n') then 2 else 1)
    else some (c.utf16, 1)

variable {e rest t : Text} {units v : List Nat}

/-- What the grammar takes for the first character is found as such. -/
theorem TemplateCharacter.firstCharacter?_eq (h : TemplateCharacter e rest units) :
    firstCharacter? (e ++ rest) = some (units, e.length) := by
  cases h with
  | char _ hbackslash _ hend =>
    rw [singleton_append, firstCharacter?, if_neg hbackslash,
      if_neg (isLineEnd_eq_false.1 hend).2.1]
    rfl
  | dollar => rfl
  | lineBreak h =>
    cases h with
    | lineFeed | both | lineSeparator | paragraphSeparator => rfl
    | carriageReturn h =>
      rw [singleton_append, firstCharacter?, if_neg (by decide), if_pos (by decide), if_neg h]
      rfl
  | continuation h =>
    rw [cons_append, firstCharacter?, if_pos rfl, h.escape?_eq]
    rfl
  | escape h =>
    obtain ⟨value, hvalue, rfl⟩ := h.escape?_eq
    rw [cons_append, firstCharacter?, if_pos rfl, hvalue]
    rfl

theorem TemplateCharacters.eq_nil_or_cons (h : TemplateCharacters t v) :
    t = [] ∧ v = [] ∨ ∃ e rest here units, t = e ++ rest ∧ v = here ++ units ∧
      TemplateCharacter e rest here ∧ TemplateCharacters rest units := by
  cases h with
  | nil => exact .inl ⟨rfl, rfl⟩
  | cons hchar hrest => exact .inr ⟨_, _, _, _, rfl, rfl, hchar, hrest⟩

theorem TemplateCharacter.append_ne_nil (h : TemplateCharacter e rest units) : e ++ rest ≠ [] := by
  intro hnil
  have hfirst := h.firstCharacter?_eq
  rw [hnil] at hfirst
  cases hfirst

/-- A text has one cooked value at most. -/
theorem TemplateCharacters.unique {w : List Nat} (hv : TemplateCharacters t v)
    (hw : TemplateCharacters t w) : v = w := by
  induction hv generalizing w with
  | nil =>
    obtain ⟨-, rfl⟩ | ⟨e, rest, here, units, heq, -, hchar, -⟩ := hw.eq_nil_or_cons
    · rfl
    · exact absurd heq.symm hchar.append_ne_nil
  | @cons e rest here units hchar _ ih =>
    obtain ⟨hnil, -⟩ | ⟨e', rest', here', units', heq, rfl, hchar', hrest'⟩ := hw.eq_nil_or_cons
    · exact absurd hnil hchar.append_ne_nil
    · have hfirst := hchar.firstCharacter?_eq
      rw [heq, hchar'.firstCharacter?_eq] at hfirst
      obtain ⟨rfl, hlength⟩ := Prod.mk.inj (Option.some.inj hfirst)
      obtain ⟨-, rfl⟩ := append_inj heq hlength.symm
      rw [ih hrest']

/-! ## Line ends written as escapes -/

/-- Whether a text begins with a line end that is written as an escape. -/
def beginsFolded : Text → Bool
  | [] => false
  | c :: t => c.val == 0x0A || (c.val == 0x0D && t.head?.any (·.val = 0x0A))

theorem foldLines_cons {c : CodePoint} (h : isLineEnd c = false) (t : Text) :
    foldLines (c :: t) = c :: foldLines t := by
  obtain ⟨hfeed, hreturn, -⟩ := isLineEnd_eq_false.1 h
  rw [Text.foldLines, if_neg hfeed, if_neg fun h => hreturn h.1]

/-- A text without line ends stays. -/
theorem foldLines_append {s : Text} (h : ∀ c ∈ s, isLineEnd c = false) (t : Text) :
    foldLines (s ++ t) = s ++ foldLines t := by
  induction s with
  | nil => rfl
  | cons c s ih =>
    obtain ⟨hc, hs⟩ := forall_mem_cons.1 h
    rw [cons_append, foldLines_cons hc, ih hs, cons_append]

/-- No line feed is left. -/
theorem lineFeed_notMem_foldLines (t : Text) : ofChar '\n' ∉ foldLines t := by
  induction t with
  | nil => exact not_mem_nil
  | cons c t ih =>
    rw [Text.foldLines]
    split_ifs with hfeed hreturn
    · simpa [Text.ofString] using ⟨by decide, by decide, ih⟩
    · exact ih
    · simpa [ih] using fun h : '\n' = c => hfeed (h ▸ rfl)

/-- A folded text begins as before, or with the backslash of an escape. -/
theorem head?_foldLines (t : Text) :
    (foldLines t).head? = t.head? ∨ (foldLines t).head? = some (ofChar '\\') := by
  cases t with
  | nil => exact .inl rfl
  | cons c t =>
    rw [Text.foldLines]
    split_ifs with hfeed hreturn
    · exact .inr rfl
    · rcases t with _ | ⟨d, t⟩
      · cases hreturn.2
      · rw [Text.foldLines, if_pos (by simpa using hreturn.2)]
        exact .inr rfl
    · exact .inl rfl

/-- No escape holds a line end. -/
theorem Escape.forall_isLineEnd (h : Escape e rest units) : ∀ c ∈ e, isLineEnd c = false := by
  cases h with
  | single h =>
    have hall : ∀ e ∈ singleEscapes, isLineEnd (ofChar e.1) = false := by decide
    exact forall_mem_singleton.2 (hall _ h)
  | itself _ hend => exact forall_mem_singleton.2 hend
  | null => exact forall_mem_singleton.2 rfl
  | hex _ h | unicode _ h =>
    exact forall_mem_cons.2 ⟨rfl, fun d hd => isLineEnd_of_isHex (all_eq_true.1 h d hd)⟩
  | codePoint _ h =>
    refine forall_mem_cons.2
      ⟨rfl, forall_mem_cons.2 ⟨rfl, forall_mem_append.2 ⟨fun d hd => ?_, ?_⟩⟩⟩
    · exact isLineEnd_of_isHex (all_eq_true.1 h d hd)
    · exact forall_mem_singleton.2 rfl

/-- An escape is one before a folded text too. -/
theorem Escape.fold (h : Escape e rest units) : Escape e (foldLines rest) units := by
  cases h with
  | single h => exact .single h
  | itself hc hend => exact .itself hc hend
  | null h =>
    refine .null ?_
    rcases head?_foldLines rest with hhead | hhead <;> rw [hhead]
    · exact h
    · rfl
  | hex hlength h => exact .hex hlength h
  | unicode hlength h => exact .unicode hlength h
  | codePoint hne h hc => exact .codePoint hne h hc

/-- A line end is written as an escape, or it stays one. -/
theorem LineBreak.fold (h : LineBreak e rest) :
    beginsFolded (e ++ rest) = true ∧ lineBreakUnit e = 0x0A ∧
      foldLines (e ++ rest) = ofChar '\\' :: ofChar 'n' :: foldLines rest ∨
      beginsFolded (e ++ rest) = false ∧ foldLines (e ++ rest) = e ++ foldLines rest ∧
      LineBreak e (foldLines rest) := by
  cases h with
  | lineFeed => exact .inl ⟨rfl, rfl, rfl⟩
  | both => exact .inl ⟨rfl, rfl, rfl⟩
  | carriageReturn h =>
    have hrest : rest.head?.any (·.val = 0x0A) = false := by
      cases rest with
      | nil => rfl
      | cons d rest => exact decide_eq_false fun hd => h (congrArg some (Fin.ext hd))
    refine .inr ⟨?_, ?_, .carriageReturn fun hhead => ?_⟩
    · rw [singleton_append, beginsFolded, hrest]
      rfl
    · rw [singleton_append, Text.foldLines, if_neg (by decide), if_neg (by simp [hrest])]
      rfl
    · exact lineFeed_notMem_foldLines rest (mem_of_mem_head? hhead)
  | lineSeparator => exact .inr ⟨rfl, rfl, .lineSeparator⟩
  | paragraphSeparator => exact .inr ⟨rfl, rfl, .paragraphSeparator⟩

/-- One character gives the same code units, unless it is a line end after a
    backslash that is written as an escape, which gives two more. -/
theorem TemplateCharacter.fold {here : List Nat} (h : TemplateCharacter e rest here) :
    ∃ k new, (∀ units, TemplateCharacters (foldLines rest) units →
      TemplateCharacters (foldLines (e ++ rest)) (new ++ units)) ∧
      (e ++ rest).escapeTails.countP beginsFolded = k + rest.escapeTails.countP beginsFolded ∧
      new.length = here.length + 2 * k ∧ (k = 0 → new = here) := by
  cases h with
  | @char _ c hbacktick hbackslash hdollar hend =>
    refine ⟨0, c.utf16, fun units hunits => ?_, ?_, rfl, fun _ => rfl⟩
    · rw [singleton_append, foldLines_cons hend]
      exact .cons (.char hbacktick hbackslash hdollar hend) hunits
    · rw [singleton_append, escapeTails_cons hbackslash, Nat.zero_add]
  | dollar h =>
    refine ⟨0, [0x24], fun units hunits => ?_, ?_, rfl, fun _ => rfl⟩
    · rw [singleton_append, foldLines_cons rfl]
      refine .cons (.dollar fun hhead => ?_) hunits
      rcases head?_foldLines rest with hfold | hfold
      · exact h (hfold ▸ hhead)
      · rw [hfold] at hhead
        cases hhead
    · rw [singleton_append, escapeTails_cons (by decide), Nat.zero_add]
  | lineBreak h =>
    have htails : escapeTails (e ++ rest) = rest.escapeTails :=
      escapeTails_append (by cases h <;> decide) rest
    rcases h.fold with ⟨-, hunit, hfold⟩ | ⟨-, hfold, h'⟩
    · refine ⟨0, [0x0A], fun units hunits => ?_,
        by rw [htails, Nat.zero_add], rfl, fun _ => by rw [hunit]⟩
      rw [hfold]
      exact .cons (.escape (.single (by decide))) hunits
    · refine ⟨0, [lineBreakUnit e], fun units hunits => ?_,
        by rw [htails, Nat.zero_add], rfl, fun _ => rfl⟩
      rw [hfold]
      exact .cons (.lineBreak h') hunits
  | @continuation e _ h =>
    have htails := (StringEscape.continuation h).escapeTails_eq
    rcases h.fold with ⟨hbegins, -, hfold⟩ | ⟨hbegins, hfold, h'⟩
    · refine ⟨1, [0x5C, 0x6E], fun units hunits => ?_, ?_, rfl, fun h => absurd h Nat.one_ne_zero⟩
      · -- The backslash is escaped by the one before it, and the letter stands for itself.
        have hletter : TemplateCharacters
            (ofChar 'n' :: foldLines rest) (0x6E :: units) :=
          .cons (.char (by decide) (by decide) (by decide) rfl) hunits
        rw [cons_append, foldLines_cons rfl, hfold]
        exact .cons (.escape (.single (by decide))) hletter
      · rw [htails, countP_cons, hbegins, if_pos rfl, Nat.add_comm]
    · refine ⟨0, [], fun units hunits => ?_, ?_, rfl, fun _ => rfl⟩
      · rw [cons_append, foldLines_cons rfl, hfold]
        exact .cons (.continuation h') hunits
      · rw [htails, countP_cons, hbegins]
        simp
  | @escape e _ _ h =>
    have htails := (StringEscape.common h).escapeTails_eq
    refine ⟨0, here, fun units hunits => ?_, ?_, rfl, fun _ => rfl⟩
    · rw [cons_append, foldLines_cons rfl, foldLines_append h.forall_isLineEnd]
      exact .cons (.escape h.fold) hunits
    · have hbegins : beginsFolded (e ++ rest) = false := by
        cases e with
        | nil => cases h
        | cons d e =>
          obtain ⟨hfeed, hreturn, -⟩ :=
            isLineEnd_eq_false.1 (h.forall_isLineEnd d mem_cons_self)
          simp [beginsFolded, hfeed, hreturn]
      rw [htails, countP_cons, hbegins]
      simp

/-- A folded text has a cooked value again, with two code units more for each
    line end after a backslash that is written as an escape. -/
theorem TemplateCharacters.fold (h : TemplateCharacters t v) :
    ∃ w, TemplateCharacters (foldLines t) w ∧
      w.length = v.length + 2 * t.escapeTails.countP beginsFolded ∧
      (t.escapeTails.countP beginsFolded = 0 → w = v) := by
  induction h with
  | nil => exact ⟨[], .nil, rfl, fun _ => rfl⟩
  | cons hchar _ ih =>
    obtain ⟨units, hunits, hlength, hzero⟩ := ih
    obtain ⟨k, new, hnew, hcount, hnewlength, hnewzero⟩ := hchar.fold
    refine ⟨new ++ units, hnew units hunits, ?_, fun h => ?_⟩
    · rw [length_append, length_append, hnewlength, hlength, hcount]
      omega
    · rw [hcount] at h
      rw [hnewzero (by omega), hzero (by omega)]

/-- A folded text has one cooked value. It is the one of the text if and only if
    no backslash is followed by a line end that is written as an escape. -/
theorem foldLines_cooked_iff (h : TemplateCharacters t v) :
    ∃ w, (∀ w', TemplateCharacters (foldLines t) w' ↔ w' = w) ∧
      (w = v ↔ ∀ tail ∈ t.escapeTails, beginsFolded tail = false) := by
  obtain ⟨w, hw, hlength, hzero⟩ := h.fold
  refine ⟨w, fun w' => ⟨fun hw' => hw'.unique hw, fun heq => heq ▸ hw⟩, ?_⟩
  rw [← countP_escapeTails]
  refine ⟨fun heq => ?_, hzero⟩
  rw [heq] at hlength
  omega

end StringLiteral

end Resugar
