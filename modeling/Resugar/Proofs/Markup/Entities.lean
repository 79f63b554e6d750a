import Resugar.Markup.Props
import Resugar.Printer.Print
import Resugar.Proofs.Text.StringLiteral

/-!
# Entities

Between tags and in the quotes of an attribute, a few code points are written as
*entities*: a mark, `&`, and a name. What is written so can be read back in one
pass from left to right, because the mark is written as an entity too. A text
that looks like an entity, as `&lt;`, is thus not taken for one.

`Entities` is a table of entities with what makes this work. No argument looks
at a single entity.
-/

namespace Resugar

open List
open Text (ofString)
open CodePoint (ofChar)

open StringLiteral (substitute foldl_substitute foldl_substitute_singleton)

/-- The mark that begins an entity. -/
def entityMark : CodePoint :=
  '&'

/-- The code points that are written as entities, each with its entity. Of these
    only the mark stands in entities, at their beginning, and no entity begins
    with another one. -/
structure Entities where
  table : List (CodePoint × Text)
  mark_first : ∃ e rest, table = (entityMark, e) :: rest ∧ entityMark ∉ rest.map Prod.fst
  marked : ∀ e ∈ table, ∃ name, e.2 = entityMark :: name
  plain : ∀ e ∈ table, ∀ c ∈ e.2.tail, c ∉ table.map Prod.fst
  eq_of_prefix : ∀ e ∈ table, ∀ d ∈ table, d.2 <+: e.2 → d = e

namespace Entities

variable (E : Entities)

/-- What is written for a code point. -/
def point (c : CodePoint) : Text :=
  (E.table.lookup c).getD [c]

/-- A text with entities for the code points of the table. -/
def escape (t : Text) : Text :=
  t.replace E.point

/-- What a text with entities stands for, less some code points. -/
def readAfter : (passed : Nat) → Text → Text
  | _, [] => []
  | passed + 1, _ :: t => readAfter passed t
  | 0, c :: t =>
    match E.table.find? fun e => e.2.isPrefixOf (c :: t) with
    | some e => e.1 :: readAfter (e.2.length - 1) t
    | none => c :: readAfter 0 t

/-- What a text with entities stands for, read from left to right. -/
def read (t : Text) : Text :=
  E.readAfter 0 t

variable {E} {e : CodePoint × Text} {c : CodePoint} {t : Text}

/-! ## Writing -/

/-- A code point is written as itself, or as a mark and a name. -/
theorem point_cases (c : CodePoint) :
    (c ∉ E.table.map Prod.fst ∧ E.point c = [c]) ∨
      ∃ name, (c, entityMark :: name) ∈ E.table ∧ E.point c = entityMark :: name := by
  rcases hlookup : E.table.lookup c with _ | entity
  · refine .inl ⟨fun hc => ?_, by rw [point, hlookup]; rfl⟩
    obtain ⟨e, he, rfl⟩ := mem_map.1 hc
    simpa using lookup_eq_none_iff.1 hlookup e he
  · obtain ⟨before, after, htable, -⟩ := lookup_eq_some_iff.1 hlookup
    have hmem : (c, entity) ∈ E.table := by simp [htable]
    obtain ⟨name, rfl⟩ := E.marked _ hmem
    exact .inr ⟨name, hmem, by rw [point, hlookup]; rfl⟩

/-- The mark is written as an entity. -/
theorem mark_mem : entityMark ∈ E.table.map Prod.fst := by
  obtain ⟨e, rest, htable, -⟩ := E.mark_first
  simp [htable]

theorem escape_cons (c : CodePoint) (t : Text) : E.escape (c :: t) = E.point c ++ E.escape t :=
  flatMap_cons

/-- No code point of the table is left in a written text, but for the mark. -/
theorem notMem_escape (hc : c ∈ E.table.map Prod.fst) (hmark : c ≠ entityMark) (t : Text) :
    c ∉ E.escape t := by
  intro hmem
  obtain ⟨d, -, hd⟩ := mem_flatMap.1 hmem
  rcases point_cases (E := E) d with ⟨hplain, hpoint⟩ | ⟨name, hentity, hpoint⟩
  · rw [hpoint, mem_singleton] at hd
    exact hplain (hd ▸ hc)
  · rw [hpoint, mem_cons] at hd
    exact E.plain _ hentity c (hd.resolve_left hmark) hc

/-- A mark in a written text begins an entity. -/
theorem prefix_of_mark {before after : Text} (h : E.escape t = before ++ entityMark :: after) :
    ∃ entity ∈ E.table.map Prod.snd, entity <+: entityMark :: after := by
  induction t generalizing before with
  | nil => simp [escape, Text.replace] at h
  | cons c t ih =>
    rw [escape_cons] at h
    rcases point_cases (E := E) c with ⟨hplain, hpoint⟩ | ⟨name, hentity, hpoint⟩
    · rw [hpoint, singleton_append] at h
      cases before with
      | nil => exact absurd mark_mem ((cons.inj h).1 ▸ hplain)
      | cons d before => exact ih (cons.inj h).2
    · rw [hpoint, cons_append] at h
      cases before with
      | nil =>
        have hafter : name ++ E.escape t = after := (cons.inj h).2
        exact ⟨_, mem_map_of_mem hentity, E.escape t, by rw [cons_append, hafter]⟩
      | cons d before =>
        -- the mark is not in the name, so it stands after it
        obtain ⟨u, rfl, hu⟩ | ⟨u, hname, hu⟩ := append_eq_append_iff.1 (cons.inj h).2
        · exact ih hu
        · rcases u with _ | ⟨d', u⟩
          · exact @ih [] (by rw [nil_append]; exact hu.symm)
          · have hmem : entityMark ∈ name := by simp [hname, (cons.inj hu).1]
            exact absurd mark_mem (E.plain _ hentity _ hmem)

/-! ## One replacement after the other -/

theorem lookup_map_val (table : List (CodePoint × Text)) (c : CodePoint) :
    (table.map fun e => (e.1.val, e.2)).lookup c.val = table.lookup c := by
  induction table with
  | nil => rfl
  | cons e table ih =>
    rw [map_cons, lookup_cons, lookup_cons, ih]
    by_cases hc : c = e.1
    · simp [hc]
    · rw [beq_eq_false_iff_ne.2 hc, beq_eq_false_iff_ne.2 fun h => hc (Fin.ext h)]

/-- Writing every code point on its own is replacing one code point after the
    other, the mark first. -/
theorem escape_eq_foldl (t : Text) :
    E.escape t = E.table.foldl (fun t e => substitute t e.1.val e.2) t := by
  have hpairwise : (E.table.map fun e => (e.1.val, e.2)).Pairwise fun e later =>
      ∀ c ∈ e.2, c.val ≠ later.1 := by
    rw [pairwise_map]
    obtain ⟨entity, rest, htable, hrest⟩ := E.mark_first
    have hlater (e : CodePoint × Text) (he : e ∈ E.table) (later : CodePoint × Text)
        (hl : later ∈ rest) : ∀ c ∈ e.2, c.val ≠ later.1.val := by
      intro c hc hval
      have hkey : c ∈ rest.map Prod.fst := Fin.ext hval ▸ mem_map_of_mem hl
      obtain ⟨name, hname⟩ := E.marked e he
      rcases mem_cons.1 (hname ▸ hc) with rfl | hc
      · exact hrest hkey
      · exact E.plain e he c (by rwa [hname]) (by rw [htable]; exact mem_cons_of_mem _ hkey)
    rw [htable] at hlater ⊢
    refine pairwise_cons.2 ⟨fun later => hlater _ mem_cons_self later, ?_⟩
    exact List.Pairwise.imp_of_mem (fun he hl _ => hlater _ (mem_cons_of_mem _ he) _ hl)
      (pairwise_of_forall fun _ _ => trivial)
  have hfoldl (u : Text) : E.table.foldl (fun t e => substitute t e.1.val e.2) u =
      (E.table.map fun e => (e.1.val, e.2)).foldl (fun t e => substitute t e.1 e.2) u := by
    rw [foldl_map]
  rw [hfoldl, foldl_substitute, escape]
  refine congrArg (Text.replace · t) (funext fun c => ?_)
  rw [foldl_substitute_singleton hpairwise, lookup_map_val, point]

/-! ## Reading -/

/-- An entity is read as its code point, whatever comes after it. -/
theorem find?_entity (he : e ∈ E.table) (t : Text) :
    E.table.find? (fun d => d.2.isPrefixOf (e.2 ++ t)) = some e := by
  have hsome : (E.table.find? fun d => d.2.isPrefixOf (e.2 ++ t)).isSome :=
    find?_isSome.2 ⟨e, he, List.isPrefixOf_iff_prefix.2 (prefix_append _ _)⟩
  obtain ⟨d, hd⟩ := Option.isSome_iff_exists.1 hsome
  have hmem := mem_of_find?_eq_some hd
  have hprefix : d.2.isPrefixOf (e.2 ++ t) = true := by simpa using find?_some hd
  obtain h | h := List.prefix_or_prefix_of_prefix (List.isPrefixOf_iff_prefix.1 hprefix)
    (prefix_append e.2 t)
  · rw [hd, E.eq_of_prefix e he d hmem h]
  · rw [hd, ← E.eq_of_prefix d hmem e he h]

/-- Without a mark there is no entity. -/
theorem find?_eq_none (hc : c ≠ entityMark) (t : Text) :
    E.table.find? (fun e => e.2.isPrefixOf (c :: t)) = none := by
  refine List.find?_eq_none.2 fun e he hprefix => ?_
  obtain ⟨name, hname⟩ := E.marked e he
  rw [List.isPrefixOf_iff_prefix, hname, List.cons_prefix_cons] at hprefix
  exact hc hprefix.1.symm

/-- Code points that are passed over leave no trace. -/
theorem readAfter_length_append (passed t : Text) :
    E.readAfter passed.length (passed ++ t) = E.read t := by
  induction passed with
  | nil => rfl
  | cons c passed ih => exact ih

/-- Reading the entities of a written text gives the text. -/
theorem read_escape (t : Text) : E.read (E.escape t) = t := by
  induction t with
  | nil => rfl
  | cons c t ih =>
    rw [escape_cons, read]
    rcases point_cases (E := E) c with ⟨hplain, hpoint⟩ | ⟨name, hentity, hpoint⟩
    · have hc : c ≠ entityMark := fun h => hplain (h ▸ mark_mem)
      rw [hpoint, singleton_append, readAfter, find?_eq_none hc, ← read, ih]
    · have hfind := find?_entity hentity (E.escape t)
      have hrest := readAfter_length_append (E := E) name (E.escape t)
      rw [hpoint, cons_append, readAfter]
      rw [cons_append] at hfind
      rw [hfind]
      simp only [length_cons, Nat.add_sub_cancel]
      rw [hrest, ih]

/-! ## The two tables -/

/-- The entities between tags. -/
def betweenTags : Entities where
  table := [('&', "&amp;"), ('<', "&lt;"), ('>', "&gt;"), ('\x7b', "&#123;"),
    ('\x7d', "&#125;")]
  mark_first := ⟨_, _, rfl, by decide⟩
  marked := by simp [entityMark, ofString]
  plain := by simp [ofString, ofChar, -Fin.reduceFinMk]
  eq_of_prefix := by simp [ofString, ofChar, -Fin.reduceFinMk]

/-- The entities in the quotes of an attribute. -/
def inQuotes : Entities where
  table := [('&', "&amp;"), ('"', "&quot;")]
  mark_first := ⟨_, _, rfl, by decide⟩
  marked := by simp [entityMark, ofString]
  plain := by simp [ofString, ofChar, -Fin.reduceFinMk]
  eq_of_prefix := by simp [ofString, ofChar, -Fin.reduceFinMk]

theorem escape_betweenTags (t : Text) : betweenTags.escape t = t.escapeMarkup := by
  refine congrArg (Text.replace · t) (funext fun c => ?_)
  rw [Text.escapeMarkupPoint]
  split_ifs with hmark hless hgreater hopen hclose
  · rw [hmark]; rfl
  · rw [hless]; rfl
  · rw [hgreater]; rfl
  · rw [show c = '\x7b' from Fin.ext hopen]; rfl
  · rw [show c = '\x7d' from Fin.ext hclose]; rfl
  · have hopen : c ≠ '\x7b' := fun h => hopen (congrArg Fin.val h)
    have hclose : c ≠ '\x7d' := fun h => hclose (congrArg Fin.val h)
    have hnone : betweenTags.table.lookup c = none := by
      simp [betweenTags, lookup_eq_none_iff, hmark, hless, hgreater, hopen, hclose]
    rw [point, hnone]
    rfl

theorem escape_inQuotes (t : Text) : inQuotes.escape t = t.escapeAttribute := by
  refine congrArg (Text.replace · t) (funext fun c => ?_)
  rw [Text.escapeAttributePoint]
  split_ifs with hmark hquote
  · rw [hmark]; rfl
  · rw [hquote]; rfl
  · have hnone : inQuotes.table.lookup c = none := by
      simp [inQuotes, lookup_eq_none_iff, hmark, hquote]
    rw [point, hnone]
    rfl

end Entities

/-! ## What is printed -/

open Node

/-- A string as the value of an attribute: in quotes if it can be printed, and
    else in braces. -/
theorem print_attribute_string (name t : Text) (spelling : Option Text) :
    (namedAttribute name (some (literal (.string t) spelling).attributeValue)).print =
        .ok (Text.concat [name, "=\"", t.escapeAttribute, "\""]) ∨
      (literal (.string t) spelling).attributeValue = container (literal (.string t) spelling) ∧
        ∃ u, (literal (.string t) spelling).print = .ok u ∧
          (namedAttribute name (some (literal (.string t) spelling).attributeValue)).print =
            .ok (Text.concat [name, "=\x7b", u, "\x7d"]) := by
  cases hprintable : t.all CodePoint.isPrintable with
  | true =>
    have hvalue : (literal (.string t) spelling).attributeValue = literal (.string t) none := by
      simp [attributeValue, stringValue?, hprintable]
    rw [hvalue]
    exact .inl rfl
  | false =>
    have hvalue : (literal (.string t) spelling).attributeValue =
        container (literal (.string t) spelling) := by
      simp [attributeValue, stringValue?, hprintable]
    rw [hvalue]
    cases spelling <;> exact .inr ⟨rfl, _, rfl, rfl⟩

/-- What is written for a text reads back. Between tags it has none of `<`, `>`
    and the braces, in the quotes of an attribute it has no quote, and it has a
    mark only where an entity begins; read from left to right it gives the text.
    This is also what comes of putting in one entity after the other. So the
    string of an attribute is printed in quotes between which it reads back, or
    as the literal that it is. -/
theorem markup_reads_back (t : Text) :
    ((∀ c ∈ t.escapeMarkup, c ≠ '<' ∧ c ≠ '>' ∧
          c ≠ '\x7b' ∧ c ≠ '\x7d') ∧
        (∀ before after, t.escapeMarkup = before ++ ofChar '&' :: after →
          ∃ e ∈ ["&amp;", "&lt;", "&gt;", "&#123;", "&#125;"],
            ofString e <+: '&' :: after) ∧
        Entities.betweenTags.read t.escapeMarkup = t ∧
        t.escapeMarkup =
          Entities.betweenTags.table.foldl (fun u e => substitute u e.1.val e.2) t) ∧
      (ofChar '"' ∉ t.escapeAttribute ∧
        (∀ before after, t.escapeAttribute = before ++ ofChar '&' :: after →
          ∃ e ∈ ["&amp;", "&quot;"], ofString e <+: '&' :: after) ∧
        Entities.inQuotes.read t.escapeAttribute = t ∧
        t.escapeAttribute =
          Entities.inQuotes.table.foldl (fun u e => substitute u e.1.val e.2) t) ∧
      ∀ name spelling,
        (∃ quoted, ofChar '"' ∉ quoted ∧ Entities.inQuotes.read quoted = t ∧
          (namedAttribute name (some (literal (.string t) spelling).attributeValue)).print =
            .ok (Text.concat [name, "=\"", quoted, "\""])) ∨
        (literal (.string t) spelling).attributeValue = container (literal (.string t) spelling) ∧
          ∃ u, (literal (.string t) spelling).print = .ok u ∧
            (namedAttribute name (some (literal (.string t) spelling).attributeValue)).print =
              .ok (Text.concat [name, "=\x7b", u, "\x7d"]) := by
  rw [← Entities.escape_betweenTags, ← Entities.escape_inQuotes]
  have hquote : ofChar '"' ∉ Entities.inQuotes.escape t :=
    Entities.notMem_escape (by decide) (by decide) t
  refine ⟨⟨fun c hc => ?_, fun before after h => ?_, Entities.read_escape t,
    Entities.escape_eq_foldl t⟩,
    ⟨hquote, fun before after h => ?_, Entities.read_escape t, Entities.escape_eq_foldl t⟩,
    fun name spelling => ?_⟩
  · refine ⟨?_, ?_, ?_, ?_⟩ <;>
    · rintro rfl
      exact Entities.notMem_escape (by decide) (by decide) t hc
  · obtain ⟨entity, hentity, hprefix⟩ := Entities.prefix_of_mark h
    have hentity : entity ∈ ["&amp;", "&lt;", "&gt;", "&#123;", "&#125;"].map ofString :=
      hentity
    obtain ⟨e, he, rfl⟩ := mem_map.1 hentity
    exact ⟨e, he, hprefix⟩
  · obtain ⟨entity, hentity, hprefix⟩ := Entities.prefix_of_mark h
    have hentity : entity ∈ ["&amp;", "&quot;"].map ofString := hentity
    obtain ⟨e, he, rfl⟩ := mem_map.1 hentity
    exact ⟨e, he, hprefix⟩
  · refine (print_attribute_string name t spelling).imp_left fun h => ?_
    exact ⟨_, hquote, Entities.read_escape t, by rw [h, Entities.escape_inQuotes]⟩

end Resugar
