import Resugar.Proofs.Printer.Assembly

/-!
# The place of a node in a printed text

A node that is printed inside another one is moved to the right with it, once
for every pair of braces around it. The printer does so to finished texts, line
by line. `Text.shift` says the same code point by code point, and so goes into
the parts of a text (`Text.shift_append`). The text of a whole program can be
taken apart at a node (`Occurrence`): what stands before it, what stands for it,
which is its text with a level written after its line feeds for every level
around it (`Text.nest`), and what stands after it.
-/

namespace Resugar

open Segments

namespace Text

/-- Whether this is the line feed. -/
def isFeed (c : CodePoint) : Bool :=
  c == CodePoint.ofChar '\n'

/-- One level. -/
def level : Text :=
  "  "

/-- A text with a level before every code point that begins a line. -/
def shift : (atStart : Bool) → Text → Text
  | _, [] => []
  | atStart, c :: t => (if atStart && !isFeed c then level else []) ++ c :: shift (isFeed c) t

/-- Whether a line begins after a text, which may begin a line or not. -/
def endsLine (atStart : Bool) (t : Text) : Bool :=
  (t.getLast?.map isFeed).getD atStart

/-- What is written before a text for one level, at a line's start or not. -/
def lead (atStart : Bool) (t : Text) : Text :=
  if atStart && t.head?.any (!isFeed ·) then level else []

/-- A text in the middle of a line, moved to the right by a number of levels. -/
def nest : (depth : Nat) → Text → Text
  | 0, t => t
  | depth + 1, t => shift false (nest depth t)

section

variable {s t : Text} {b : Bool}

theorem exists_lines_eq_cons (t : Text) : ∃ line rest, lines t = line :: rest := by
  induction t with
  | nil => exact ⟨[], [], rfl⟩
  | cons c t ih =>
    obtain ⟨line, rest, h⟩ := ih
    rw [lines] at h
    by_cases hc : c = CodePoint.ofChar '\n'
    · exact ⟨[], splitOn '\n' t, by rw [lines, splitOn, if_pos hc]⟩
    · exact ⟨c :: line, rest, by rw [lines, splitOn, if_neg hc, h]⟩

theorem unlines_append_cons (s line : Text) (rest : List Text) :
    unlines ((s ++ line) :: rest) = s ++ unlines (line :: rest) := by
  cases rest <;> simp [unlines, List.intercalate]

/-- Line by line, the first line is moved or not, and all others are. -/
theorem shift_eq_unlines (t : Text) :
    shift true t = unlines ((lines t).map indentLine) ∧
      shift false t = unlines ((lines t).head?.toList ++ (lines t).tail.map indentLine) := by
  -- what stands after a line feed begins a line, so neither half can be shown
  -- without the other
  induction t with
  | nil => exact ⟨rfl, rfl⟩
  | cons c t ih =>
    obtain ⟨line, rest, hlines⟩ := exists_lines_eq_cons t
    rw [hlines] at ih
    obtain ⟨htrue, hfalse⟩ := ih
    by_cases hc : c = CodePoint.ofChar '\n'
    · have hcons : lines (c :: t) = [] :: line :: rest := by
        rw [lines, splitOn, if_pos hc, ← hlines, lines]
      have hfeed : isFeed c = true := by simp [isFeed, hc]
      rw [hcons, shift, shift, hfeed, htrue]
      simp [unlines, indentLine, hc]
    · have hcons : lines (c :: t) = (c :: line) :: rest := by
        rw [lines] at hlines
        rw [lines, splitOn, if_neg hc, hlines]
      have hfeed : isFeed c = false := by simp [isFeed, hc]
      have hindent : indentLine (c :: line) = level ++ [c] ++ line := by simp [indentLine, level]
      rw [hcons, shift, shift, hfeed, hfalse, List.map_cons, hindent, unlines_append_cons]
      exact ⟨by simp, (unlines_append_cons [c] line _).symm⟩

theorem indent_eq_shift (t : Text) : indent t = shift true t :=
  (shift_eq_unlines t).1.symm

theorem endsLine_cons (c : CodePoint) : endsLine b (c :: t) = endsLine (isFeed c) t := by
  cases t with
  | nil => rfl
  | cons d t =>
    rw [endsLine, endsLine, List.getLast?_cons_cons]
    simp [List.getLast?_cons]

theorem endsLine_append : endsLine b (s ++ t) = endsLine (endsLine b s) t := by
  induction s generalizing b with
  | nil => rfl
  | cons c s ih => rw [List.cons_append, endsLine_cons, ih, endsLine_cons]

theorem shift_append : shift b (s ++ t) = shift b s ++ shift (endsLine b s) t := by
  induction s generalizing b with
  | nil => rfl
  | cons c s ih =>
    rw [List.cons_append, shift, shift, ih, endsLine_cons, List.append_assoc, List.cons_append]

theorem shift_eq_lead_append : shift b t = lead b t ++ shift false t := by
  cases t with
  | nil => cases b <;> rfl
  | cons c t => simp [shift, lead]

theorem shift_append₃ (u : Text) : shift b (s ++ u ++ t) = (shift b s ++ lead (endsLine b s) u) ++
    shift false u ++ shift (endsLine (endsLine b s) u) t := by
  rw [shift_append, shift_append, endsLine_append, shift_eq_lead_append (t := u)]
  simp only [List.append_assoc]

end

end Text

/-! ## Places -/

/-- A text taken apart at something in it, with the levels it is moved by. -/
structure Occurrence where
  before : Text
  depth : Nat
  text : Text
  after : Text

namespace Occurrence

/-- What stands for the text at its place. -/
def token (p : Occurrence) : Text :=
  p.text.nest p.depth

/-- The text as a whole. -/
def whole (p : Occurrence) : Text :=
  p.before ++ p.token ++ p.after

/-- The same place with more around it. -/
def within (p : Occurrence) (before after : Text) : Occurrence :=
  ⟨before ++ p.before, p.depth, p.text, p.after ++ after⟩

/-- The same place when the whole text is moved to the right by one level. -/
def indented (p : Occurrence) : Occurrence :=
  ⟨p.before.shift true ++ p.token.lead (p.before.endsLine true), p.depth + 1, p.text,
    p.after.shift (p.token.endsLine (p.before.endsLine true))⟩

/-- More text around a place stands around the whole. -/
@[simp] theorem whole_within (p : Occurrence) (before after : Text) :
    (p.within before after).whole = before ++ p.whole ++ after := by
  simp [within, whole, token]

@[simp] theorem whole_indented (p : Occurrence) : p.indented.whole = p.whole.indent := by
  rw [Text.indent_eq_shift, whole, whole, Text.shift_append₃]
  rfl

end Occurrence

/-- The place of what stands at a path below a node, in the text of the node. -/
inductive Node.Places : Node → Path → Occurrence → Prop where
  | here {n : Node} {t : Text} : n.print = .ok t → Places n [] ⟨[], 0, t, []⟩
  | own {n : Node} {l r : Segments} {path : Path} {t before after : Text} :
    n.segments = l ++ .own path t :: r → Prints l before → Prints r after →
      Places n path ⟨before, 0, t, after⟩
  | child {n c : Node} {l r : Segments} {path rest : Path}
    {place : Occurrence} {before after : Text} :
    n.segments = l ++ .child path c :: r → Prints l before → Prints r after → Places c rest place →
      Places n (path ++ rest) (place.within before after)
  | nested {n c : Node} {l r : Segments} {path rest : Path}
    {place : Occurrence} {before after : Text} :
    n.segments = l ++ .nested path c :: r → Prints l before → Prints r after → Places c rest place →
      Places n (path ++ rest) (place.indented.within before after)

namespace Node

variable {n : Node} {t : Text} {path : Path} {place : Occurrence}

/-- What stands before it, what stands for it and what stands after it make up
    the text of the node. -/
theorem Places.whole_eq (h : n.Places path place) (ht : n.print = .ok t) : place.whole = t := by
  induction h generalizing t with
  | here hprint =>
    obtain rfl := Except.ok.inj (hprint.symm.trans ht)
    simp [Occurrence.whole, Occurrence.token, Text.nest]
  | own hsegments hl hr =>
    obtain ⟨before, u, after, hbefore, hu, hafter, rfl⟩ := (hsegments ▸ prints_segments ht).split
    cases hu
    rw [hl.unique hbefore, hr.unique hafter]
    rfl
  | child hsegments hl hr _ ih =>
    obtain ⟨before, u, after, hbefore, hu, hafter, rfl⟩ := (hsegments ▸ prints_segments ht).split
    rw [Occurrence.whole_within, ih hu, hl.unique hbefore, hr.unique hafter]
  | nested hsegments hl hr _ ih =>
    obtain ⟨before, u, after, hbefore, hu, hafter, rfl⟩ := (hsegments ▸ prints_segments ht).split
    obtain ⟨v, hv, hu⟩ := bind_eq_ok.1 hu
    cases hu
    rw [Occurrence.whole_within, Occurrence.whole_indented, ih hv,
      hl.unique hbefore, hr.unique hafter]

end Node

end Resugar
