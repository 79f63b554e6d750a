import Resugar.Proofs.Printer.Assembly

/-!
# The grammar of destructuring targets

The grammar that ECMAScript gives for what may stand on the left of a
destructuring assignment: names and members, and patterns in braces and
brackets, with targets, defaults, a rest at the end and, in brackets, holes.
`Yields` gives its productions for texts; how expressions and keys are read is
left open (`Leaves`), as long as what is printed for one of them is read as it.
-/

namespace Resugar

namespace Pattern

open Node

/-- How the parts of a pattern are read that are none: expressions, keys. -/
structure Leaves where
  expression : Text → Node → Prop
  key : Text → Node → Bool → Prop
  expression_print {source t : Text} {n : Node} : expression source n →
    n.listItem n.print = .ok t → expression t n
  key_print {source t : Text} {n : Node} {computed : Bool} : key source n computed →
    n.printKey n.print computed = .ok t → key t n computed

/-- Expressions and keys that are read only as they are printed. -/
def Leaves.printed : Leaves where
  expression t n := n.listItem n.print = .ok t
  key t n computed := n.printKey n.print computed = .ok t
  expression_print := fun _ h => h
  key_print := fun _ h => h

/-- What the grammar reads: a target, an element, a property, and the contents
    of braces and brackets. -/
inductive Symbol where
  | target (n : Node)
  | element (n : Node)
  | property (n : Node)
  | properties (ns : List Node)
  | elements (ns : List (Option Node))

/-- The targets that are no patterns. -/
def isSimple : Node → Bool
  | identifier _ => true
  | member .. => true
  | parenthesized _ => true
  | _ => false

/-- White space between the parts of a pattern. -/
def IsBlank (t : Text) : Prop :=
  t.all CodePoint.isSpace = true

/-- The texts that are read as something. -/
inductive Yields (L : Leaves) : Symbol → Text → Prop where
  | simple {n : Node} {t : Text} : isSimple n = true → L.expression t n → Yields L (.target n) t
  | object {ns : List Node} {t : Text} : Yields L (.properties ns) t →
    Yields L (.target (objectPattern ns)) (Text.concat ["\x7b", t, "\x7d"])
  | array {ns : List (Option Node)} {t : Text} : Yields L (.elements ns) t →
    Yields L (.target (arrayPattern ns)) (Text.concat ["[", t, "]"])
  | bare {n : Node} {t : Text} : Yields L (.target n) t → Yields L (.element n) t
  | default {n e : Node} {t u a b : Text} :
    Yields L (.target n) t → L.expression u e → IsBlank a → IsBlank b →
      Yields L (.element (defaultPattern n e)) (Text.concat [t, a, "=", b, u])
  | shorthand {name t : Text} {v : Node} :
    v.isShorthandFor (identifier name) = true → Yields L (.element v) t →
      Yields L (.property (entry (identifier name) v .init false true false)) t
  | pair {k v : Node} {computed : Bool} {t u a b : Text} :
    L.key t k computed → Yields L (.element v) u → IsBlank a → IsBlank b →
      Yields L (.property (entry k v .init computed false false)) (Text.concat [t, a, ":", b, u])
  | noProperties {a : Text} : IsBlank a → Yields L (.properties []) a
  | lastProperty {n : Node} {t a b : Text} : Yields L (.property n) t → IsBlank a → IsBlank b →
    Yields L (.properties [n]) (Text.concat [a, t, b])
  | restProperty {n : Node} {t a b c : Text} :
    isSimple n = true → L.expression t n → IsBlank a → IsBlank b → IsBlank c →
      Yields L (.properties [restPattern n]) (Text.concat [a, "...", b, t, c])
  | moreProperties {n : Node} {ns : List Node} {t ts a b : Text} :
    Yields L (.property n) t → Yields L (.properties ns) ts → IsBlank a → IsBlank b →
      Yields L (.properties (n :: ns)) (Text.concat [a, t, b, ",", ts])
  | noElements {a : Text} : IsBlank a → Yields L (.elements []) a
  | lastElement {n : Node} {t a b : Text} : Yields L (.element n) t → IsBlank a → IsBlank b →
    Yields L (.elements [some n]) (Text.concat [a, t, b])
  | restElement {n : Node} {t a b c : Text} :
    Yields L (.target n) t → IsBlank a → IsBlank b → IsBlank c →
      Yields L (.elements [some (restPattern n)]) (Text.concat [a, "...", b, t, c])
  | moreElements {n : Node} {ns : List (Option Node)} {t ts a b : Text} :
    Yields L (.element n) t → Yields L (.elements ns) ts → IsBlank a → IsBlank b →
      Yields L (.elements (some n :: ns)) (Text.concat [a, t, b, ",", ts])
  | hole {ns : List (Option Node)} {ts a : Text} : Yields L (.elements ns) ts → IsBlank a →
    Yields L (.elements (none :: ns)) (Text.concat [a, ",", ts])

/-- What is printed for something that the grammar reads. -/
def Symbol.Prints : Symbol → Text → Prop
  | target n, t | element n, t | property n, t => n.print = .ok t
  | properties ns, t =>
    ∃ ts a b, List.Forall₂ (fun n u => n.print = .ok u) ns ts ∧ IsBlank a ∧ IsBlank b ∧
      t = Text.concat [a, Text.join ", " ts, b]
  | elements ns, t =>
    ∃ ts a, List.Forall₂ (Option.Rel fun n u => n.print = .ok u) ns ts ∧ IsBlank a ∧
      t = Text.concat [a, Text.join ", " (ts.map (·.getD [])),
        if ts.getLast? = some none then "," else []]

section

variable {L : Leaves} {s : Symbol} {n : Node} {t u : Text}

theorem isBlank_nil : IsBlank [] := rfl

theorem isBlank_blank : IsBlank (Text.ofString " ") := rfl

theorem IsBlank.append (h : IsBlank t) (h' : IsBlank u) : IsBlank (t ++ u) := by
  rw [IsBlank, List.all_append, h, h', Bool.and_self]

theorem listItem_eq_print (h : n.precedence = .ok 20) : n.listItem n.print = n.print := by
  rw [listItem, h]
  cases n.print <;> rfl

theorem precedence_of_isSimple (h : isSimple n = true) : n.precedence = .ok 20 := by
  cases n
  case identifier | member | parenthesized => rfl
  all_goals cases h

/-- No element of a pattern needs parentheses, and none is a function. -/
theorem Yields.precedence_eq (h : Yields L (.element n) t) :
    n.precedence = .ok 20 ∧ n.isFunctionExpr = false := by
  cases h with
  | default => exact ⟨rfl, rfl⟩
  | bare h =>
    cases h with
    | object | array => exact ⟨rfl, rfl⟩
    | simple hsimple _ =>
      refine ⟨precedence_of_isSimple hsimple, ?_⟩
      cases n
      case functionExpr => cases hsimple
      all_goals rfl

theorem Leaves.expression_of_isSimple (hsimple : isSimple n = true) (h : L.expression t n)
    (hu : n.print = .ok u) : L.expression u n :=
  L.expression_print h (by rw [listItem_eq_print (precedence_of_isSimple hsimple), hu])

/-- `{ a }` and `{ a = b }` are printed as the value. -/
theorem print_shorthand {name : Text} {v : Node}
    (hshort : v.isShorthandFor (identifier name) = true) (hv : v.isFunctionExpr = false)
    (h : (entry (identifier name) v .init false true false).print = .ok t) : v.print = .ok t := by
  rw [print] at h
  swap
  · rintro _ _ _ _ _ rfl
    cases hv
  rwa [if_pos (by simpa using hshort)] at h

/-- A list with holes is printed element by element, and the holes stay. -/
theorem forall₂_rel_of_holes {ns : List (Option Node)} {ts : List (Option Text)}
    (h : ((printHoles ns).mapM fun e => e.mapM fun p => p.2) = .ok ts) :
    List.Forall₂ (Option.Rel fun n u => n.print = .ok u) ns ts := by
  rw [printHoles_eq] at h
  refine (List.forall₂_map_left_iff.1 (forall₂_of_mapM h)).imp fun o r h => ?_
  cases o with
  | none =>
    cases h
    exact .none
  | some n =>
    obtain ⟨u, hu, rfl⟩ := map_eq_ok.1 h
    exact .some hu

/-- `{ k: v }` is printed with its key and its value. -/
theorem print_pair {k v : Node} {computed : Bool} (hv : v.isFunctionExpr = false)
    (h : (entry k v .init computed false false).print = .ok t) :
    ∃ a b, k.printKey k.print computed = .ok a ∧ v.listItem v.print = .ok b ∧
      t = Text.concat [a, ": ", b] := by
  rw [print] at h
  swap
  · rintro _ _ _ _ _ rfl
    cases hv
  obtain ⟨a, ha, h⟩ := bind_eq_ok.1 h
  obtain ⟨b, hb, h⟩ := bind_eq_ok.1 h
  cases h
  exact ⟨a, b, ha, hb, rfl⟩

theorem join_cons_cons (sep u v : Text) (ts : List Text) :
    Text.join sep (u :: v :: ts) = Text.concat [u, sep, Text.join sep (v :: ts)] := by
  simp [Text.join, Text.concat, List.intercalate]

theorem join_singleton (sep u : Text) : Text.join sep [u] = u := by
  simp [Text.join, List.intercalate]

/-- What stands in braces has blanks around it, unless it is empty. -/
theorem bracedList_eq (ts : List Text) :
    ∃ a b, IsBlank a ∧ IsBlank b ∧
      Text.bracedList ts = Text.concat ["\x7b", Text.concat [a, Text.join ", " ts, b], "\x7d"] := by
  cases ts with
  | nil => exact ⟨[], [], isBlank_nil, isBlank_nil, rfl⟩
  | cons t ts =>
    exact ⟨_, _, isBlank_blank, isBlank_blank,
      by simp [Text.bracedList, Text.concat, Text.ofString]⟩

/-- A comma ends an element, and a blank begins the next one. -/
theorem concat_join_cons_cons (a u v b : Text) (ts : List Text) :
    Text.concat [a, Text.join ", " (u :: v :: ts), b] =
      Text.concat [a, u, [], ",", Text.concat [" ", Text.join ", " (v :: ts), b]] := by
  rw [join_cons_cons]
  simp [Text.concat, Text.ofString]

theorem concat_rest (a u b : Text) :
    Text.concat [a, Text.concat ["...", u], b] = Text.concat [a, "...", [], u, b] := by
  simp [Text.concat]

/-- What is printed for something that the grammar reads is read as it. -/
theorem Yields.print (h : Yields L s t) (hu : s.Prints u) : Yields L s u := by
  induction h generalizing u with
  | simple hsimple h => exact .simple hsimple (Leaves.expression_of_isSimple hsimple h hu)
  | object _ ih =>
    rw [Symbol.Prints, Node.print] at hu
    obtain ⟨ts, hts, hu⟩ := bind_eq_ok.1 hu
    cases hu
    rw [map_snd_printList] at hts
    obtain ⟨a, b, ha, hb, heq⟩ := bracedList_eq ts
    rw [heq]
    exact .object (ih ⟨ts, a, b, List.forall₂_map_left_iff.1 (forall₂_of_mapM hts), ha, hb, rfl⟩)
  | array _ ih =>
    rw [Symbol.Prints, Node.print] at hu
    obtain ⟨ts, hts, hu⟩ := bind_eq_ok.1 hu
    cases hu
    have heq : Text.brackets ts =
        Text.concat ["[", Text.concat [[], Text.join ", " (ts.map (·.getD [])),
          if ts.getLast? = some none then "," else []], "]"] := by
      simp [Text.brackets, Text.concat]
    rw [heq]
    exact .array (ih ⟨ts, [], forall₂_rel_of_holes hts, isBlank_nil, rfl⟩)
  | bare _ ih => exact .bare (ih hu)
  | default _ he _ _ ih =>
    rw [Symbol.Prints, Node.print] at hu
    obtain ⟨l, hl, hu⟩ := bind_eq_ok.1 hu
    obtain ⟨r, hr, hu⟩ := bind_eq_ok.1 hu
    cases hu
    exact .default (ih hl) (L.expression_print he hr) isBlank_blank isBlank_blank
  | shorthand hshort hv ih =>
    obtain ⟨_, hfunction⟩ := hv.precedence_eq
    exact .shorthand hshort (ih (print_shorthand hshort hfunction hu))
  | pair hk hv _ _ ih =>
    obtain ⟨hprecedence, hfunction⟩ := hv.precedence_eq
    obtain ⟨a, b, ha, hb, rfl⟩ := print_pair hfunction hu
    rw [listItem_eq_print hprecedence] at hb
    exact .pair (L.key_print hk ha) (ih hb) isBlank_nil isBlank_blank
  | noProperties =>
    obtain ⟨ts, a, b, hts, ha, hb, rfl⟩ := hu
    cases hts
    exact .noProperties (by simpa [Text.concat, Text.join] using ha.append hb)
  | lastProperty _ _ _ ih =>
    obtain ⟨ts, a, b, hts, ha, hb, rfl⟩ := hu
    obtain _ | ⟨hn, hts⟩ := hts
    cases hts
    rw [join_singleton]
    exact .lastProperty (ih hn) ha hb
  | restProperty hsimple h _ _ _ =>
    obtain ⟨ts, a, b, hts, ha, hb, rfl⟩ := hu
    obtain _ | ⟨hn, hts⟩ := hts
    cases hts
    rw [Node.print] at hn
    obtain ⟨v, hv, hn⟩ := bind_eq_ok.1 hn
    cases hn
    rw [join_singleton, concat_rest]
    exact .restProperty hsimple (Leaves.expression_of_isSimple hsimple h hv) ha isBlank_nil hb
  | moreProperties _ _ _ _ ih ihs =>
    obtain ⟨ts, a, b, hts, ha, hb, rfl⟩ := hu
    obtain _ | ⟨hn, hts⟩ := hts
    cases hts with
    | nil =>
      -- the source may have a comma after its last property, which is not printed
      rw [join_singleton]
      exact .lastProperty (ih hn) ha hb
    | cons hv hts =>
      rw [concat_join_cons_cons]
      exact .moreProperties (ih hn)
        (ihs ⟨_, _, b, .cons hv hts, isBlank_blank, hb, rfl⟩) ha isBlank_nil
  | noElements =>
    obtain ⟨ts, a, hts, ha, rfl⟩ := hu
    cases hts
    exact .noElements (by simpa [Text.concat, Text.join] using ha)
  | lastElement _ _ _ ih =>
    obtain ⟨ts, a, hts, ha, rfl⟩ := hu
    obtain _ | ⟨⟨hn⟩, hts⟩ := hts
    cases hts
    rw [List.map_singleton, join_singleton]
    exact .lastElement (ih hn) ha isBlank_nil
  | restElement _ _ _ _ ih =>
    obtain ⟨ts, a, hts, ha, rfl⟩ := hu
    obtain _ | ⟨⟨hn⟩, hts⟩ := hts
    cases hts
    rw [Node.print] at hn
    obtain ⟨v, hv, hn⟩ := bind_eq_ok.1 hn
    cases hn
    rw [List.map_singleton, join_singleton, Option.getD_some, concat_rest]
    exact .restElement (ih hv) ha isBlank_nil isBlank_nil
  | moreElements _ _ _ _ ih ihs =>
    obtain ⟨ts, a, hts, ha, rfl⟩ := hu
    obtain _ | ⟨⟨hn⟩, hts⟩ := hts
    cases hts with
    | nil =>
      rw [List.map_singleton, join_singleton]
      exact .lastElement (ih hn) ha isBlank_nil
    | cons hv hts =>
      rw [List.map_cons, List.map_cons, concat_join_cons_cons]
      exact .moreElements (ih hn) (ihs ⟨_, _, .cons hv hts, isBlank_blank, rfl⟩) ha isBlank_nil
  | hole _ _ ihs =>
    obtain ⟨ts, a, hts, ha, rfl⟩ := hu
    obtain _ | ⟨⟨⟩, hts⟩ := hts
    cases hts with
    | nil =>
      -- a hole at the end is printed with a comma of its own
      exact .hole (.noElements isBlank_nil) ha
    | cons hv hts =>
      rw [List.map_cons, List.map_cons, concat_join_cons_cons]
      exact .hole (ihs ⟨_, _, .cons hv hts, isBlank_blank, rfl⟩) ha

end

end Pattern

end Resugar
