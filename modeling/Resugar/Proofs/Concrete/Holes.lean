import Resugar.Proofs.Printer.Assembly

/-!
# Arrays with holes, printed and read

An array is printed with commas between its elements, where a hole is an element
without a text, and with one more comma after a hole at the end. It is read from
the commas and the elements between the brackets: a comma before which no
element stands, since the last comma, is a hole. Between the two stands
`ListToken.ofElements`, which says the same of both: a comma ends every hole,
and every element but the last.
-/

namespace Resugar

open Node Segments

/-- What is found between the brackets of an array: commas, and nodes. -/
inductive ListToken where
  | comma
  | item (n : Node)

/-- The commas among the marks of a text, and the nodes. The commas in the text
    of a node are its own. -/
def Segment.listTokens : Segment → List ListToken
  | .mark t => (t.filter (· == CodePoint.ofChar ',')).map fun _ => .comma
  | .own _ t => (t.filter (· == CodePoint.ofChar ',')).map fun _ => .comma
  | .child _ n => [.item n]
  | .nested _ n => [.item n]

/-- The commas and the nodes of pieces, in the order in which they stand. -/
def Segments.listTokens (ss : Segments) : List ListToken :=
  ss.flatMap Segment.listTokens

/-- What a concrete node is for a comma or a node that is printed: the token, or
    a node that means `value` of what is printed. -/
inductive ListToken.ReadAs (meaning : Reading → Except Fault Node) (value : Node → Node) :
    ListToken → Reading → Prop where
  | comma {c : Reading} : c.kind = "," → c.label.isNamed = false → ReadAs meaning value .comma c
  | item {n : Node} {c : Reading} :
    c.kind ≠ "," → c.label.isNamed = true → c.label.isExtra = false → meaning c = .ok (value n) →
      ReadAs meaning value (.item n) c

/-- The commas between the elements of a list and after its holes. -/
def ListToken.ofElements : List (Option Node) → List ListToken
  | [] => []
  | none :: xs => .comma :: ofElements xs
  | [some x] => [.item x]
  | some x :: xs => .item x :: .comma :: ofElements xs

/-! ## What is printed -/

@[simp] theorem listTokens_append (ss ss' : Segments) :
    (ss ++ ss').listTokens = ss.listTokens ++ ss'.listTokens :=
  List.flatMap_append

@[simp] theorem listTokens_child (path : Path) (n : Node) :
    (child path n).listTokens = [.item n] := rfl

/-- Parentheses bring no commas. -/
@[simp] theorem listTokens_parensIf (needed : Bool) (ss : Segments) :
    (parensIf needed ss).listTokens = ss.listTokens := by
  cases needed with
  | false => rfl
  | true =>
    have hopen : (mark "(").listTokens = [] := rfl
    have hclose : (mark ")").listTokens = [] := rfl
    simp [parensIf, parens, Segments.concat, hopen, hclose]

/-- An element is one node between commas, in parentheses or not. -/
@[simp] theorem listTokens_itemSegments (path : Path) (n : Node) :
    (itemSegments path n).listTokens = [.item n] := by
  simp [itemSegments]

/-- Commas and blanks between pieces, and one more after a final hole. -/
theorem listTokens_brackets {pieces : List (Option Segments)} {xs : List (Option Node)}
    (h : List.Forall₂ (Option.Rel fun ss x => ss.listTokens = [.item x]) pieces xs) :
    (brackets pieces).listTokens = ListToken.ofElements xs := by
  have hopen : (mark "[").listTokens = [] := rfl
  have hclose : (mark "]").listTokens = [] := rfl
  have hbrackets : (brackets pieces).listTokens =
      (Segments.join ", " (pieces.map (·.getD []))).listTokens ++
      (mark (if pieces.getLast?.any (·.isNone) then "," else [])).listTokens := by
    simp [brackets, Segments.concat, hopen, hclose]
  rw [hbrackets]
  clear hbrackets
  induction h with
  | nil => rfl
  | @cons p x pieces xs hp hrest ih =>
    cases hrest with
    | nil =>
      -- the last piece is followed by a comma if it is a hole
      cases hp with
      | none => rfl
      | @some ss x hp =>
        have hnil : (mark []).listTokens = [] := rfl
        simpa [Segments.join, List.intercalate, hnil, ListToken.ofElements] using hp
    | @cons q y pieces xs hq hrest =>
      have hjoin : (Segments.join ", " ((p :: q :: pieces).map (·.getD []))).listTokens =
          (p.getD []).listTokens ++ .comma ::
          (Segments.join ", " ((q :: pieces).map (·.getD []))).listTokens := by
        simp [Segments.join, List.intercalate]
        rfl
      rw [hjoin, List.getLast?_cons_cons, List.append_assoc, List.cons_append, ih]
      cases hp with
      | none => rfl
      | some hp =>
        rw [Option.getD_some, hp]
        rfl

/-- The elements of a list with holes are one node each. -/
theorem forall₂_holeSteps {f : Path → Node → Segments}
    (hf : ∀ path n, (f path n).listTokens = [.item n]) (name : String) (xs : List (Option Node)) :
    List.Forall₂ (Option.Rel fun ss x => ss.listTokens = [.item x])
      ((holeSteps name xs).map (Option.map fun s => f s.1 s.2)) xs := by
  rw [holeSteps, List.map_map, List.forall₂_map_left_iff]
  have hzip (i : Nat) : List.Forall₂ (fun p x => p.1 = x) (xs.zipIdx i) xs := by
    induction xs generalizing i with
    | nil => exact .nil
    | cons x xs ih => exact .cons rfl (ih (i + 1))
  refine (hzip 0).imp fun p x hx => ?_
  subst hx
  rcases p with ⟨_ | n, i⟩
  · exact .none
  · exact .some (hf _ n)

/-- The commas of an array and of an array pattern. -/
theorem listTokens_array {n : Node} {xs : List (Option Node)}
    (hn : n = array xs ∨ n = arrayPattern xs) :
    n.segments.listTokens = ListToken.ofElements xs := by
  rcases hn with rfl | rfl
  · exact listTokens_brackets (forall₂_holeSteps listTokens_itemSegments "elements" xs)
  · exact listTokens_brackets (forall₂_holeSteps listTokens_child "elements" xs)

/-! ## What is read -/

namespace Reading

/-- The children that the elements of an array are read from. -/
def isListed (c : Reading) : Bool :=
  c.kind == "," || c.label.isNamed && !c.label.isExtra

variable {meaning : Reading → Except Fault Node} {value : Node → Node} {cs : List Reading}
  {xs : List (Option Node)}

/-- All other children are passed over. -/
theorem elements_filter_isListed (seen : Bool) (cs : List Reading) :
    elements meaning seen (cs.filter isListed) = elements meaning seen cs := by
  induction cs generalizing seen with
  | nil => rfl
  | cons c cs ih =>
    rw [List.filter_cons]
    by_cases hc : c.isListed = true
    · rw [if_pos hc, elements, elements, ih, ih, ih]
    · rw [if_neg hc, ih]
      simp only [isListed, Bool.or_eq_true, not_or, Bool.not_eq_true] at hc
      rw [elements.eq_def meaning seen (c :: cs)]
      simp [hc]

/-- A comma ends an element, or is a hole if there is none before it. -/
theorem elements_comma {c : Reading} (hc : c.kind = ",") (h : elements meaning false cs = .ok xs)
    (seen : Bool) : elements meaning seen (c :: cs) = .ok (if seen then xs else none :: xs) := by
  rw [elements, if_pos (beq_iff_eq.2 hc), h]
  rfl

/-- A node is an element, and the comma after it ends it. -/
theorem elements_item {c : Reading} {x : Node} (hc : ListToken.ReadAs meaning value (.item x) c)
    (h : elements meaning true cs = .ok xs) (seen : Bool) :
    elements meaning seen (c :: cs) = .ok (some (value x) :: xs) := by
  obtain _ | ⟨hkind, hnamed, hextra, hmeaning⟩ := hc
  rw [elements, if_neg (by simpa using hkind), if_pos (by simp [hnamed, hextra]), hmeaning]
  show (do return some (value x) :: (← elements meaning true cs)) = _
  rw [h]
  rfl

/-- The elements and holes read from commas are those that they stand for. -/
theorem elements_ofElements
    (h : List.Forall₂ (ListToken.ReadAs meaning value) (ListToken.ofElements xs) cs) :
    elements meaning false cs = .ok (xs.map (Option.map value)) := by
  -- no element stands before the list, nor after a comma, so the flag is always
  -- the same here
  induction xs using ListToken.ofElements.induct generalizing cs with
  | case1 =>
    cases h
    rfl
  | case2 xs ih =>
    obtain _ | ⟨hc, hrest⟩ := h
    obtain ⟨hkind, -⟩ := hc
    exact elements_comma hkind (ih hrest) false
  | case3 x =>
    obtain _ | ⟨hc, hrest⟩ := h
    cases hrest
    exact elements_item hc rfl false
  | case4 x xs hne ih =>
    rw [ListToken.ofElements] at h
    · obtain _ | ⟨hc, hrest⟩ := h
      obtain _ | ⟨hcomma, hrest⟩ := hrest
      obtain ⟨hkind, -⟩ := hcomma
      exact elements_item hc (elements_comma hkind (ih hrest) true) false
    · exact hne

end Reading

/-- The elements of an array read back. Take the children of a concrete node
    among which stand one token for every comma that is printed between or after
    the elements of an array, or of an array pattern, and one node for every
    element, in the same order. What is read from them are the elements, each as
    its node means it, and the holes; so where the nodes mean the elements, the
    list itself is read. -/
theorem holes_read_back {n : Node} {xs : List (Option Node)} {t : Text}
    {meaning : Reading → Except Fault Node} {value : Node → Node} {cs : List Reading}
    (hn : n = array xs ∨ n = arrayPattern xs) (ht : n.print = .ok t)
    (hcs : List.Forall₂ (ListToken.ReadAs meaning value) n.segments.listTokens
      (cs.filter Reading.isListed)) :
    Prints n.segments t ∧ Reading.elements meaning false cs = .ok (xs.map (Option.map value)) ∧
      ((∀ x, some x ∈ xs → value x = x) → Reading.elements meaning false cs = .ok xs) := by
  have hread : Reading.elements meaning false cs = .ok (xs.map (Option.map value)) := by
    rw [← Reading.elements_filter_isListed]
    exact Reading.elements_ofElements (listTokens_array hn ▸ hcs)
  refine ⟨prints_segments ht, hread, fun hvalue => ?_⟩
  have hmap : xs.map (Option.map value) = xs.map id := by
    refine List.map_congr_left fun x hx => ?_
    cases x with
    | none => rfl
    | some x => rw [Option.map_some, hvalue x hx, id]
  rw [hread, hmap, List.map_id]

/-- The bytes of `[, a, , b, ,]`. -/
def holeSource : Source :=
  [91, 44, 32, 97, 44, 32, 44, 32, 98, 44, 32, 44, 93]

/-- The children of the array in `[, a, , b, ,]`, each one byte long. -/
def holeChildren : List Concrete :=
  let child (kind : String) (isNamed : Bool) (start : Nat) :=
    Concrete.node ⟨kind, none, isNamed, false, start, start + 1⟩ []
  [child "[" false 0, child "," false 1, child "identifier" true 3,
    child "," false 4, child "," false 6,
    child "identifier" true 8, child "," false 9, child "," false 11, child "]" false 12]

/-- A hole at the beginning, one in the middle and one at the end. -/
theorem holes_read_back_ends :
    (array [none, some (identifier "a"), none, some (identifier "b"), none]).print =
      .ok "[, a, , b, ,]" ∧
      Reading.elements Reading.expression false (Concrete.readAll holeSource holeChildren) =
        .ok [none, some (identifier "a"), none, some (identifier "b"), none] := by
  have hprint : (array [none, some (identifier "a"), none, some (identifier "b"), none]).print =
      .ok (Text.ofString "[, a, , b, ,]") := by decide +kernel
  have hread : List.Forall₂ (ListToken.ReadAs Reading.expression id)
      (array [none, some (identifier "a"), none, some (identifier "b"), none]).segments.listTokens
      ((Concrete.readAll holeSource holeChildren).filter Reading.isListed) :=
    .cons (.comma rfl rfl) (.cons (.item (by decide) rfl rfl rfl)
      (.cons (.comma rfl rfl) (.cons (.comma rfl rfl)
        (.cons (.item (by decide) rfl rfl rfl)
          (.cons (.comma rfl rfl) (.cons (.comma rfl rfl) .nil))))))
  exact ⟨hprint, (holes_read_back (.inl rfl) hprint hread).2.2 fun _ _ => rfl⟩

end Resugar
