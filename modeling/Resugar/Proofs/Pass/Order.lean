import Mathlib.Data.List.Flatten
import Resugar.Proofs.Pass.Idle

/-!
# The order of evaluation

A program evaluates some expressions at its top level (`Node.evaluated`). When a
variable is exported with its value, the initializer moves from its declaration
down to the export, past all that stands between. So the order can change, and
it can come back: in `var a = f(); var b = g(); exports.a = a; exports.b = b;`
first `f()` moves past `g()`, and then `g()` past `f()`.

To tell equal expressions apart, the pass is run on statements that carry the
places where their expressions stood in the program (`Placed.run`). It takes the
same steps as the pass itself.
-/

namespace Resugar

open Node List

/-- Of two elements of a list, one stands before the other. -/
theorem eq_or_rel_of_pairwise {α : Type} {R : α → α → Prop} {l : List α} (h : l.Pairwise R)
    {a b : α} (ha : a ∈ l) (hb : b ∈ l) : a = b ∨ R a b ∨ R b a := by
  induction h with
  | nil => cases ha
  | @cons c l hc _ ih =>
    rcases mem_cons.1 ha with rfl | ha' <;> rcases mem_cons.1 hb with rfl | hb'
    · exact .inl rfl
    · exact .inr (.inl (hc b hb'))
    · exact .inr (.inr (hc a ha'))
    · exact ih ha' hb'

/-! ## Places -/

namespace Node

/-- The initializer of a declarator. -/
def initializer? : Node → Option Node
  | declarator _ init => init
  | _ => none

/-- The declarators of a statement that have an initializer. -/
def initialized : Node → List Node
  | varDecl _ ds => ds.filter (·.initializer?.isSome)
  | _ => []

/-- The expressions that a statement evaluates at the top level, in order. -/
def evaluated : Node → List Node
  | varDecl _ ds => ds.filterMap initializer?
  | exprStmt e => [e]
  | exportNamed (some (varDecl _ ds)) _ _ => ds.filterMap initializer?
  | exportDefault e => [e]
  | _ => []

/-- A declaration evaluates the initializers of its declarators. -/
theorem forall₂_evaluated {n : Node} (h : n.isVarDecl = true) :
    List.Forall₂ (fun d e => d.initializer? = some e) n.initialized n.evaluated := by
  obtain ⟨kind, ds, rfl⟩ : ∃ kind ds, n = varDecl kind ds := by
    unfold isVarDecl at h
    split at h
    · exact ⟨_, _, rfl⟩
    · cases h
  rw [initialized, evaluated]
  induction ds with
  | nil => exact .nil
  | cons d ds ih =>
    rcases hd : d.initializer? with _ | init
    · rw [filter_cons_of_neg (by simp [hd]), filterMap_cons_none hd]
      exact ih rfl
    · rw [filter_cons_of_pos (by simp [hd]), filterMap_cons_some hd]
      exact .cons hd (ih rfl)

theorem isVarDecl_exportValue (key : Text) (init : Node) :
    (exportValue key init).isVarDecl = false := by
  unfold exportValue
  split <;> rfl

theorem isVarDecl_exportBinding (key binding : Text) :
    (exportBinding key binding).isVarDecl = false := by
  unfold exportBinding
  split <;> rfl

theorem evaluated_exportValue (key : Text) (init : Node) :
    (exportValue key init).evaluated = [init] := by
  unfold exportValue
  split <;> rfl

end Node

/-- Where an expression stands in a program: in which statement, and as which of
    the expressions there. -/
structure Place where
  statement : Nat
  index : Nat
  deriving DecidableEq

namespace Place

/-- The order of a program. -/
def Before (p q : Place) : Prop :=
  p.statement < q.statement ∨ p.statement = q.statement ∧ p.index < q.index

instance : DecidableRel Before := fun p q =>
  inferInstanceAs (Decidable (p.statement < q.statement ∨
    p.statement = q.statement ∧ p.index < q.index))

theorem Before.asymm {p q : Place} (h : p.Before q) : ¬q.Before p := by
  unfold Before at *
  omega

theorem before_trichotomy (p q : Place) : p.Before q ∨ p = q ∨ q.Before p := by
  obtain ⟨i, j⟩ := p
  obtain ⟨i', j'⟩ := q
  simp only [Before, mk.injEq]
  omega

/-- The expression at a place among some statements. -/
def expression? (p : Place) (body : List Node) : Option Node :=
  body[p.statement]?.bind (·.evaluated[p.index]?)

/-- The declarator whose initializer is at a place. -/
def declarator? (p : Place) (body : List Node) : Option Node :=
  body[p.statement]?.bind (·.initialized[p.index]?)

/-- The place of a declarator is that of its initializer. -/
theorem expression?_of_declarator? {p : Place} {body : List Node} {d init : Node}
    (h : p.declarator? body = some d) (hd : d.initializer? = some init) :
    p.expression? body = some init := by
  obtain ⟨n, hn, hd'⟩ := Option.bind_eq_some_iff.1 h
  have hdeclaration : n.isVarDecl = true := by
    unfold initialized at hd'
    split at hd'
    · rfl
    · cases hd'
  obtain ⟨hlength, hget⟩ := forall₂_iff_get.1 (forall₂_evaluated hdeclaration)
  obtain ⟨hi, rfl⟩ := List.getElem?_eq_some_iff.1 hd'
  refine Option.bind_eq_some_iff.2 ⟨n, hn, List.getElem?_eq_some_iff.2 ⟨hlength ▸ hi, ?_⟩⟩
  exact Option.some.inj ((hget _ hi (hlength ▸ hi)).symm.trans hd)

/-- The statement with some number exports what a place initializes. -/
def IsExportedBy (p : Place) (i : Nat) (body : List Node) : Prop :=
  ∃ n key x init, body[i]? = some n ∧ n.exportAssignment? = some (key, x) ∧
    p.declarator? body = some (.declarator (.identifier x) (some init))

end Place

/-- A statement along a pass: the number of the statement that it comes from,
    and the places where the expressions that it evaluates stood. The name in an
    export of a binding stood nowhere. -/
structure Placed where
  statement : Node
  site : Nat
  places : List (Option Place)

namespace Placed

/-- The statement of a program with some number. -/
def ofStatement (i : Nat) (s : Node) : Placed :=
  ⟨s, i, (range s.evaluated.length).map fun j => some ⟨i, j⟩⟩

/-- The statements of a program, from some number on. -/
def number : Nat → List Node → List Placed
  | _, [] => []
  | i, s :: body => ofStatement i s :: number (i + 1) body

/-- The place of the initializer that is taken out of its declaration, and the
    statements without it. -/
def takeOut (x : Text) : List Placed → Option Place × List Placed
  | [] => (none, [])
  | s :: rest =>
    match s.statement.definition? x with
    | .ok (some (.byDeclarator kind before d after)) =>
      let i := (before.filter (·.initializer?.isSome)).length
      let remains := (Node.Definition.byDeclarator kind before d after).remains
      (s.places.getD i none, remains.map (⟨·, s.site, s.places.eraseIdx i⟩) ++ rest)
    | _ =>
      let (place, remains) := takeOut x rest
      (place, s :: remains)

/-- The statements up to a visited one: the visit leaves the given ones, and it
    changes the state. -/
def follow (done : List Placed) (s : Placed) (before after : PassState) (left : List Node) :
    List Placed :=
  match after.extracted.drop before.extracted.length with
  | (_, x) :: _ =>
    -- the initializer of `x` moves here
    let (place, remains) := takeOut x done
    remains ++ (left.drop remains.length).map (⟨·, s.site, [place]⟩)
  | [] =>
    done ++ (left.drop done.length).map fun n =>
      ⟨n, s.site, if before.tally.exports < after.tally.exports then n.evaluated.map
        fun _ => none else s.places⟩

/-- The visit of the statements of a program, in order. -/
def run (e : Surroundings) : (done rest : List Placed) → PassM (List Placed)
  | done, [] => return done
  | done, s :: rest => do
    let before ← get
    let left ← Pass.step e (done.map statement) (Visit.ofNode e s.statement) (rest.map statement)
    run e (follow done s before (← get) left) rest

/-- The statements that a pass leaves, if it rebuilds nothing but exports. -/
def trace (config : Config) (program : Node) : Except Fault (List Placed) := do
  let e ← survey config program
  let body ← program.statements
  let (walked, state) ← (run e [] (number 0 body)).run (Pass.start e program body)
  return if e.config.exports && !state.exported.isEmpty then
    walked.filter (!·.statement.isExportLeftover state.exported)
  else walked

/-- The places of the expressions that a statement evaluates. -/
def labels (s : Placed) : List Place :=
  s.places.filterMap id

/-- The places of evaluated expressions, in the order of evaluation. -/
def order (placed : List Placed) : List Place :=
  placed.flatMap labels

/-- Expressions are evaluated in the order of the program. -/
def KeepsOrder (placed : List Placed) : Prop :=
  (order placed).Pairwise Place.Before

instance : DecidablePred KeepsOrder := fun placed =>
  inferInstanceAs (Decidable ((order placed).Pairwise Place.Before))

/-- An initializer has moved from its place to the export at a statement. -/
def Moved (placed : List Placed) (p : Place) (site : Nat) : Prop :=
  ∃ s ∈ placed, s.site = site ∧ p ∈ s.labels ∧ p.statement < site

instance (p : Place) (site : Nat) : DecidablePred (Moved · p site) := fun placed =>
  inferInstanceAs (Decidable (∃ s ∈ placed, s.site = site ∧ p ∈ s.labels ∧ p.statement < site))

/-- What can be said of the places of statements: they come from different
    statements, in order, every expression is there once, and only an
    initializer that has moved, alone, comes from an earlier statement. -/
structure Arranged (placed : List Placed) : Prop where
  sites : (placed.map site).Pairwise (· < ·)
  nodup : (order placed).Nodup
  within : ∀ s ∈ placed, s.labels.Pairwise Place.Before
  moved : ∀ s ∈ placed, ∀ p ∈ s.labels, p.statement = s.site ∨ p.statement < s.site ∧ s.labels = [p]

variable {placed : List Placed}

/-- No expression has moved to an earlier statement. -/
theorem Arranged.le_site (h : Arranged placed) {s : Placed} (hs : s ∈ placed)
    {p : Place} (hp : p ∈ s.labels) : p.statement ≤ s.site := by
  obtain hp | ⟨hp, -⟩ := h.moved s hs p hp
  · exact Nat.le_of_eq hp
  · exact Nat.le_of_lt hp

/-- Leaving statements out leaves the others arranged. -/
theorem Arranged.sublist {placed' : List Placed} (h : Arranged placed)
    (hsub : placed'.Sublist placed) : Arranged placed' where
  sites := h.sites.sublist (hsub.map site)
  nodup := h.nodup.sublist (hsub.flatMap labels)
  within s hs := h.within s (hsub.subset hs)
  moved s hs := h.moved s (hsub.subset hs)

/-- Every expression is evaluated by one statement. -/
theorem Arranged.eq_of_mem_labels (h : Arranged placed) {s t : Placed} (hs : s ∈ placed)
    (ht : t ∈ placed) {p : Place} (hps : p ∈ s.labels) (hpt : p ∈ t.labels) : s = t := by
  obtain heq | hst | hts := eq_or_rel_of_pairwise (nodup_flatMap.1 h.nodup).2 hs ht
  · exact heq
  · exact absurd hpt (hst hps)
  · exact absurd hps (hts hpt)

/-- Places are in order if and only if all between an initializer and its export
    is moved as well, and further. -/
theorem Arranged.keepsOrder_iff (h : Arranged placed) :
    KeepsOrder placed ↔ ∀ p i, Moved placed p i → ∀ q ∈ order placed, p.Before q → q.statement < i →
      ∃ j, Moved placed q j ∧ i < j := by
  rw [KeepsOrder, order, pairwise_flatMap]
  constructor
  · rintro ⟨-, hbetween⟩ p i ⟨s, hs, rfl, hp, hmoved⟩ q hq hpq hqi
    obtain ⟨t, ht, hq⟩ := mem_flatMap.1 hq
    obtain rfl | ⟨hst, -⟩ | ⟨-, hts⟩ :=
      eq_or_rel_of_pairwise ((pairwise_map.1 h.sites).and hbetween) hs ht
    · -- an initializer that has moved stands alone
      obtain hp' | ⟨-, heq⟩ := h.moved s hs p hp
      · omega
      · rw [heq, mem_singleton] at hq
        exact absurd (hq ▸ hpq) (hq ▸ hpq).asymm
    · exact ⟨t.site, ⟨t, ht, rfl, hq, Nat.lt_trans hqi hst⟩, hst⟩
    · exact absurd (hts q hq p hp) hpq.asymm
  · intro hfurther
    refine ⟨h.within, ?_⟩
    have hpairs := (pairwise_map.1 h.sites).and (nodup_flatMap.1 h.nodup).2
    refine hpairs.imp_of_mem fun {s t} hs ht ⟨hst, hdisjoint⟩ p hp q hq => ?_
    have hps := h.le_site hs hp
    obtain hq' | ⟨hmoved, -⟩ := h.moved t ht q hq
    · exact .inl (by omega)
    · -- nothing that stood after `q` is evaluated before it
      obtain hpq | rfl | hqp := p.before_trichotomy q
      · exact hpq
      · exact absurd hq (hdisjoint hp)
      · obtain ⟨j, ⟨s', hs', rfl, hp', -⟩, hj⟩ := hfurther q t.site ⟨t, ht, rfl, hq, hmoved⟩ p
          (mem_flatMap.2 ⟨s, hs, hp⟩) hqp (by omega)
        rw [h.eq_of_mem_labels hs' hs hp' hp] at hj
        omega

/-! ## Arrangements -/

theorem mem_order {p : Place} : p ∈ order placed ↔ ∃ s ∈ placed, p ∈ s.labels :=
  mem_flatMap

/-- After a statement is exchanged, every other one was there before. -/
theorem eq_or_mem_of_mem {before after : List Placed} {r s t : Placed}
    (hr : r ∈ before ++ t :: after) : r = t ∨ r ∈ before ++ s :: after := by
  simp only [mem_append, mem_cons] at hr ⊢
  exact hr.elim (.inr ∘ .inl) fun hr => hr.imp id fun hr => .inr (.inr hr)

/-- A statement can come in place of another one from the same site, with some
    of its expressions. -/
theorem Arranged.replace {before after : List Placed} {s t : Placed}
    (h : Arranged (before ++ s :: after)) (hsite : t.site = s.site)
    (hlabels : t.labels.Sublist s.labels) : Arranged (before ++ t :: after) := by
  have hold : s ∈ before ++ s :: after := mem_append_right _ mem_cons_self
  refine ⟨?_, h.nodup.sublist ?_, fun r hr => ?_, fun r hr p hp => ?_⟩
  · have hsites := h.sites
    simp only [map_append, map_cons] at hsites ⊢
    rwa [hsite]
  · simp only [order, flatMap_append, flatMap_cons]
    exact (List.Sublist.refl _).append (hlabels.append (.refl _))
  · obtain rfl | hr := eq_or_mem_of_mem hr
    · exact (h.within s hold).sublist hlabels
    · exact h.within r hr
  · obtain rfl | hr := eq_or_mem_of_mem hr
    · rw [hsite]
      refine (h.moved s hold p (hlabels.subset hp)).imp id fun ⟨hlt, heq⟩ => ⟨hlt, ?_⟩
      exact (sublist_singleton.1 (heq ▸ hlabels)).resolve_left (ne_nil_of_mem hp)
    · exact h.moved r hr p hp

/-- A statement with other expressions can come from a later site. -/
theorem Arranged.concat {s : Placed} (h : Arranged placed) (hsite : ∀ t ∈ placed, t.site < s.site)
    (hwithin : s.labels.Pairwise Place.Before)
    (hmoved : ∀ p ∈ s.labels, p.statement = s.site ∨ p.statement < s.site ∧ s.labels = [p])
    (hnew : ∀ p ∈ s.labels, p ∉ order placed) : Arranged (placed ++ [s]) := by
  have hnodup : s.labels.Nodup := hwithin.imp fun {p q} hpq heq => (heq ▸ hpq).asymm (heq ▸ hpq)
  refine ⟨?_, ?_, ?_, ?_⟩
  · rw [map_append, pairwise_append]
    refine ⟨h.sites, pairwise_singleton _ _, fun i hi j hj => ?_⟩
    obtain ⟨t, ht, rfl⟩ := mem_map.1 hi
    exact mem_singleton.1 hj ▸ hsite t ht
  · rw [order, flatMap_append, flatMap_singleton, nodup_append']
    exact ⟨h.nodup, hnodup, fun p hp hs => hnew p hs hp⟩
  · exact forall_mem_append.2 ⟨h.within, forall_mem_singleton.2 hwithin⟩
  · exact forall_mem_append.2 ⟨h.moved, forall_mem_singleton.2 hmoved⟩

/-! ## Taking out -/

/-- The places of a statement are right: its expressions, and the variables that
    it declares, stood there, what has moved is exported there, and only the
    name in an export of a binding has no place. -/
structure IsFaithful (body : List Node) (s : Placed) : Prop where
  evaluated : List.Forall₂ (fun place e => ∀ p ∈ place, p.expression? body = some e)
    s.places s.statement.evaluated
  declared : s.statement.isVarDecl = true →
    List.Forall₂ (fun place d => ∀ p ∈ place, p.declarator? body = some d)
      s.places s.statement.initialized
  exported : ∀ p ∈ s.labels, p.statement < s.site → p.IsExportedBy s.site body
  known : none ∈ s.places → ∃ key binding, s.statement = exportBinding key binding

/-- In a declaration every initializer has a place. -/
theorem IsFaithful.none_notMem {body : List Node} {s : Placed} (h : s.IsFaithful body)
    (hs : s.statement.isVarDecl = true) : none ∉ s.places := by
  intro hnone
  obtain ⟨key, binding, heq⟩ := h.known hnone
  rw [heq, isVarDecl_exportBinding] at hs
  cases hs

/-- What is related to a list with an item in it has a related item in it. -/
theorem forall₂_append_cons {α β : Type} {R : α → β → Prop} {l : List α} {l₁ l₂ : List β} {b : β}
    (h : List.Forall₂ R l (l₁ ++ b :: l₂)) :
    ∃ k₁ a k₂, l = k₁ ++ a :: k₂ ∧ List.Forall₂ R k₁ l₁ ∧ R a b ∧ List.Forall₂ R k₂ l₂ := by
  induction l₁ generalizing l with
  | nil =>
    obtain _ | ⟨hab, hrest⟩ := h
    exact ⟨[], _, _, rfl, .nil, hab, hrest⟩
  | cons c l₁ ih =>
    obtain _ | ⟨hac, hrest⟩ := h
    obtain ⟨k₁, a, k₂, rfl, h₁, hab, h₂⟩ := ih hrest
    exact ⟨_ :: k₁, a, k₂, rfl, .cons hac h₁, hab, h₂⟩

variable {body : List Node} {done : List Placed}

/-- A statement without the expression from some place. -/
structure IsWithout (t : Placed) (place : Option Place) (s : Placed) : Prop where
  site : t.site = s.site
  sublist : t.labels.Sublist s.labels
  perm : s.labels.Perm (place.toList ++ t.labels)

/-- The expression is evaluated nowhere else. -/
theorem IsWithout.perm_order {before after : List Placed} {s t : Placed} {place : Option Place}
    (h : t.IsWithout place s) :
    (order (before ++ s :: after)).Perm (place.toList ++ order (before ++ t :: after)) := by
  simp only [order, flatMap_append, flatMap_cons]
  refine ((h.perm.append_right _).append_left _).trans ?_
  rw [append_assoc]
  exact perm_append_comm_assoc ..

/-- A statement less one place is one without the expression from there. -/
theorem isWithout_of_places {s t : Placed} {places₁ places₂ : List (Option Place)}
    {place : Option Place} (hsite : t.site = s.site) (hs : s.places = places₁ ++ place :: places₂)
    (ht : t.places = places₁ ++ places₂) : t.IsWithout place s := by
  have hlabels : s.labels = places₁.filterMap id ++ (place.toList ++ places₂.filterMap id) := by
    rw [labels, hs]
    cases place <;> simp
  have hleft : t.labels = places₁.filterMap id ++ places₂.filterMap id := by
    rw [labels, ht, filterMap_append]
  refine ⟨hsite, ?_, ?_⟩
  · rw [hlabels, hleft]
    exact (List.Sublist.refl _).append (sublist_append_right ..)
  · rw [hlabels, hleft, ← append_assoc, ← append_assoc]
    exact perm_append_comm.append_right _

/-- Taking a declarator out leaves the others, or nothing. -/
theorem remains_sublist (kind : VariableKind) (l : List Node) (d : Node) (r : List Node) :
    (Node.Definition.byDeclarator kind l d r).remains.Sublist [.varDecl kind (l ++ r)] := by
  unfold Node.Definition.remains
  split
  · exact nil_sublist _
  · rename_i heq
    cases heq
    exact .refl _
  · rename_i heq
    cases heq

/-- What a declaration evaluates is told by its declarators. -/
theorem isFaithful_of_declared {t : Placed} (ht : t.statement.isVarDecl = true)
    (hdeclared : List.Forall₂ (fun place d => ∀ p ∈ place, p.declarator? body = some d)
      t.places t.statement.initialized)
    (hexported : ∀ p ∈ t.labels, p.statement < t.site → p.IsExportedBy t.site body)
    (hknown : none ∉ t.places) : t.IsFaithful body where
  evaluated := by
    refine forall₂_comp hdeclared (forall₂_evaluated ht) fun place d init hplace hd p hp => ?_
    exact Place.expression?_of_declarator? (hplace p hp) hd
  declared _ := hdeclared
  exported := hexported
  known hnone := absurd hnone hknown

/-- The declarator is taken out where it is found; the rest stays. -/
theorem takeOut_cons {x : Text} {s : Placed} {rest : List Placed} {kind : VariableKind}
    {l r : List Node} {d : Node} {places₁ places₂ : List (Option Place)} {place : Option Place}
    (hs : s.statement.definition? x = .ok (some (.byDeclarator kind l d r)))
    (hplaces : s.places = places₁ ++ place :: places₂)
    (hlength : places₁.length = (l.filter (·.initializer?.isSome)).length) :
    takeOut x (s :: rest) = (place,
      (Node.Definition.byDeclarator kind l d r).remains.map
      (⟨·, s.site, places₁ ++ places₂⟩) ++ rest) := by
  have hplace : s.places.getD places₁.length none = place := by simp [hplaces]
  have herase : s.places.eraseIdx places₁.length = places₁ ++ places₂ := by
    rw [hplaces, eraseIdx_append_of_length_le (Nat.le_refl _), Nat.sub_self]
    rfl
  rw [takeOut, hs]
  dsimp only
  rw [← hlength, hplace, herase]

/-- The definition is taken out as the place of its initializer says. -/
theorem takeOut_eq {x : Text} {ss ts : List Node} {d : Node.Definition} {init : Node}
    (hfind : findDefinition? x (done.map statement) = .ok (some (ss, d, ts)))
    (hvalue : d.value? = .ok (some init)) (hdone : ∀ s ∈ done, s.IsFaithful body) :
    (∃ p, (takeOut x done).1 = some p ∧
      p.declarator? body = some (.declarator (.identifier x) (some init))) ∧
      (takeOut x done).2.map statement = ss ++ d.remains ++ ts ∧
      ∃ before s after t, done = before ++ s :: after ∧ t.IsWithout (takeOut x done).1 s ∧
        t.IsFaithful body ∧ (takeOut x done).2.Sublist (before ++ t :: after) := by
  induction done generalizing ss with
  | nil => cases hfind
  | cons s done ih =>
    obtain ⟨o, ho, hrest⟩ := bind_eq_ok.1 hfind
    rcases o with _ | d'
    · obtain ⟨o, hfound, hrest⟩ := bind_eq_ok.1 hrest
      rcases o with _ | ⟨ss', d', ts'⟩
      · cases hrest
      · cases hrest
        obtain ⟨hplace, hleft, before, t, after, t', rfl, hwithout, hfaithful, hsublist⟩ :=
          ih hfound fun t ht => hdone t (mem_cons_of_mem _ ht)
        rw [takeOut, ho]
        refine ⟨hplace, ?_, s :: before, t, after, t', rfl, hwithout,
          hfaithful, hsublist.cons_cons s⟩
        exact congrArg (s.statement :: ·) hleft
    · cases hrest
      obtain ⟨kind, l, r, hs, rfl⟩ := definition?_value ho hvalue
      -- the places of the initializers before it, its own place, and the places
      -- of those after it
      have hfaithful := hdone s mem_cons_self
      have hknown := hfaithful.none_notMem (hs ▸ rfl)
      have hdeclared := hfaithful.declared (hs ▸ rfl)
      rw [hs, initialized, filter_append, filter_cons_of_pos rfl] at hdeclared
      obtain ⟨places₁, place, places₂, hplaces, h₁, hplace, h₂⟩ := forall₂_append_cons hdeclared
      rw [takeOut_cons ho hplaces h₁.length_eq]
      rw [hplaces] at hknown
      obtain _ | p := place
      · exact absurd (mem_append_right _ mem_cons_self) hknown
      let t : Placed := ⟨.varDecl kind (l ++ r), s.site, places₁ ++ places₂⟩
      have hwithout : t.IsWithout (some p) s := isWithout_of_places rfl hplaces rfl
      have hsublist : t.places.Sublist (places₁ ++ some p :: places₂) :=
        (List.Sublist.refl _).append (sublist_cons_self ..)
      refine ⟨⟨p, rfl, hplace p rfl⟩, ?_, [], s, done, t, rfl, hwithout,
        isFaithful_of_declared rfl ?_ (fun p hp hlt => ?_) fun hnone =>
        hknown (hsublist.subset hnone), ?_⟩
      · rw [map_append, map_map]
        exact congrArg (· ++ done.map statement) (map_id _)
      · rw [initialized, filter_append]
        exact rel_append h₁ h₂
      · exact hfaithful.exported p (hwithout.sublist.subset hp) hlt
      · exact ((remains_sublist kind l _ r).map _).append (.refl done)

end Placed

/-! ## Nothing but exports -/

/-- Nothing but exports is rebuilt. -/
structure Config.OnlyExports (config : Config) : Prop where
  markup : config.markup = false
  classes : config.classes = false
  imports : config.imports = false
  booleans : config.booleans = false
  indirectCalls : config.indirectCalls = false
  displayNames : config.displayNames = false

variable {e : Surroundings} {s s' : PassState}

/-- If no markup is rebuilt, settling a node leaves the state. -/
theorem Surroundings.settle_of_not_markup (hmarkup : e.config.markup = false) {accepts : Bool}
    {n n' : Node} (h : e.settle accepts n s = .ok (n', s')) : s' = s := by
  have hnone (m : Node) : e.markupAt? accepts m = pure none := by
    rw [markupAt?, hmarkup]
    rfl
  unfold settle at h
  split at h
  case h_3 =>
    rw [hnone] at h
    cases h
    rfl
  all_goals
    cases h
    rfl

namespace Visit

/-- Nothing is counted. -/
def Uncounted : Law := fun _ _ s _ s' =>
  s'.tally = s.tally

/-- A declaration whose parts count nothing counts nothing, as neither classes
    nor imports are rebuilt. -/
theorem InDeclaration.uncounted (he : e.config.OnlyExports) {kind : VariableKind} {inList : Bool}
    {done ds ss : List Node} (h : InDeclaration Uncounted e kind inList done ds s ss s') :
    s'.tally = s.tally := by
  induction h with
  | nil => rfl
  | rebuilt hn first hclass others =>
    obtain _ | _ | _ | ⟨hclasses⟩ := hclass
    rw [he.classes] at hclasses
    cases hclasses
  | @loaded done n d rest ns s s₁ s₂ s₃ s' hn first hclass himport hplace others ih =>
    obtain ⟨-, -⟩ := himport
    simp only [Surroundings.isImport, he.imports, Bool.and_false, Bool.false_and] at hplace
    cases hplace
  | kept hn first hnone himport others ih => exact ih.trans (hnone.same.1.trans first)
  | other hn first hsome others ih => exact ih.trans first
  | empty hn first => exact first

theorem ofNode_uncounted (he : e.config.OnlyExports) (n : Node) :
    (ofNode e n).Obeys Uncounted n := by
  refine ofNode_obeys ?_ ?_ ?_ n
  · intro n inList accepts s s₁ s' slots n' _ hfields hsettle
    have hkeeps := hfields.keeps (P := fun s₂ => s₂.tally = s.tally) (Q := fun _ => True)
      (fun h _ hs => h.trans hs) (fun _ _ _ _ _ => trivial) rfl
    rw [Uncounted, Surroundings.settle_of_not_markup he.markup hsettle, hkeeps]
  · exact fun _ _ _ => rfl
  · exact fun _ hin => hin.uncounted he

end Visit

/-- Nothing is renamed or imported, and no element is rebuilt. -/
structure PassState.Plain (s : PassState) : Prop where
  renames : s.renames.entries = []
  imported : s.imported = []
  imports : s.tally.imports = 0
  markup : s.tally.markup = 0

namespace Pass

variable {done rest done' : List Node} {stmt : Node}

/-- Without new names a value moves as it is. -/
theorem movedValue_of_entries_eq_nil {r : Renaming} (hr : r.entries = []) (init : Node) :
    movedValue r init = init := by
  rw [movedValue, Renaming.sweep_of_entries_eq_nil hr]
  unfold Renaming.rename?
  split
  · rw [Renaming.apply_of_entries_eq_nil hr]
    rfl
  · rw [Renaming.collapse?_of_entries_eq_nil hr]
    rfl

/-- A statement stays where it stands, or a binding is exported there, or the
    value of a variable. -/
theorem step_of_onlyExports (he : e.config.OnlyExports) (hs : s.Plain)
    (h : step e done (Visit.ofNode e stmt) rest s = .ok (done', s')) :
    s'.Plain ∧ (done' = done ++ [stmt] ∧ s'.extracted = s.extracted ∧ s'.tally = s.tally ∨
      (∃ key binding, done' = done ++ [exportBinding key binding] ∧
        s'.extracted = s.extracted ∧ s.tally.exports < s'.tally.exports) ∨
      ∃ s₁ key binding remains init, stmt.exportAssignment? = some (key, binding) ∧
      Moves s₁ done stmt rest key binding remains init ∧
      done' = remains ++ [exportValue key init] ∧
      s'.extracted = s.extracted ++ [(key, binding)]) := by
  obtain ⟨ns, s₁, hns, hcases⟩ := step_cases h
  -- the visit of the statement changes nothing
  have htally : s₁.tally = s.tally := (Visit.ofNode_uncounted he stmt).spliced hns
  obtain ⟨-, hidle⟩ := (Visit.ofNode_idle he.booleans he.indirectCalls stmt).spliced hns
  obtain ⟨rfl, hsame⟩ := hidle hs.renames (congrArg Tally.total htally)
  have hextracted := ((Visit.ofNode_visits e stmt).spliced hns).1.extracted_eq
  have hs₁ : s₁.Plain :=
    ⟨hsame.renames ▸ hs.renames, hsame.imported ▸ hs.imported,
      htally ▸ hs.imports, htally ▸ hs.markup⟩
  obtain ⟨rfl, rfl⟩ | ⟨visited, key, binding, remains, declaration, heq,
    hassignment, rfl, hexported⟩ := hcases
  · exact ⟨hs₁, .inl ⟨rfl, hextracted, htally⟩⟩
  · cases heq
    cases hexported with
    | bound exported =>
      refine ⟨{ hs₁ with }, .inr (.inl ⟨key, binding, rfl, hextracted, ?_⟩)⟩
      rw [← htally]
      exact Nat.lt_succ_self _
    | moved hmoves exported =>
      refine ⟨{ hs₁ with }, .inr (.inr ⟨s₁, key, binding, remains, _, hassignment, hmoves, ?_, ?_⟩)⟩
      · rw [movedValue_of_entries_eq_nil hs₁.renames]
      · rw [← hextracted]

end Pass

/-! ## Runs -/

namespace Placed

variable {body : List Node} {done : List Placed} {i : Nat}

/-- What holds of the statements along a run, before the statement with some
    number is visited. -/
structure Along (body : List Node) (i : Nat) (done : List Placed) : Prop where
  arranged : Arranged done
  faithful : ∀ t ∈ done, t.IsFaithful body
  bounded : ∀ t ∈ done, t.site < i

theorem Along.nil (body : List Node) (i : Nat) : Along body i [] where
  arranged := ⟨.nil, .nil, forall_mem_nil _, forall_mem_nil _⟩
  faithful := forall_mem_nil _
  bounded := forall_mem_nil _

/-- The next statement comes after the others, with new expressions. -/
theorem Along.concat (h : Along body i done) {t : Placed} (hsite : t.site = i)
    (hfaithful : t.IsFaithful body) (hwithin : t.labels.Pairwise Place.Before)
    (hmoved : ∀ p ∈ t.labels, p.statement = i ∨ p.statement < i ∧ t.labels = [p] ∧ p ∉ order done) :
    Along body (i + 1) (done ++ [t]) where
  arranged := by
    refine h.arranged.concat (fun r hr => hsite ▸ h.bounded r hr) hwithin
      (fun p hp => ?_) fun p hp hdone => ?_
    · exact hsite ▸ (hmoved p hp).imp id fun hp => ⟨hp.1, hp.2.1⟩
    · obtain hp | ⟨-, -, hp⟩ := hmoved p hp
      · obtain ⟨r, hr, hpr⟩ := mem_order.1 hdone
        have hle := h.arranged.le_site hr hpr
        have hlt := h.bounded r hr
        omega
      · exact hp hdone
  faithful := forall_mem_append.2 ⟨h.faithful, forall_mem_singleton.2 hfaithful⟩
  bounded := by
    refine forall_mem_append.2 ⟨fun r hr => Nat.lt_succ_of_lt (h.bounded r hr),
      forall_mem_singleton.2 ?_⟩
    exact hsite ▸ Nat.lt_succ_self i

/-- What remains when an initializer is taken out, and where it stood. -/
theorem Along.of_takeOut (h : Along body i done) {x : Text} {ss ts : List Node}
    {d : Node.Definition} {init : Node}
    (hfind : findDefinition? x (done.map statement) = .ok (some (ss, d, ts)))
    (hvalue : d.value? = .ok (some init)) :
    Along body i (takeOut x done).2 ∧ ∀ p ∈ (takeOut x done).1, p.statement < i ∧
      p ∉ order (takeOut x done).2 := by
  obtain ⟨-, -, before, t, after, t', hdone, hwithout, hfaithful, hsublist⟩ :=
    takeOut_eq hfind hvalue h.faithful
  have ht : t ∈ done := hdone ▸ mem_append_right _ mem_cons_self
  have hmem {r : Placed} (hr : r ∈ (takeOut x done).2) : r = t' ∨ r ∈ done :=
    hdone ▸ eq_or_mem_of_mem (hsublist.subset hr)
  have harranged : Arranged (before ++ t' :: after) :=
    (hdone ▸ h.arranged).replace hwithout.site hwithout.sublist
  refine ⟨⟨harranged.sublist hsublist, fun r hr => ?_, fun r hr => ?_⟩,
    fun p hp => ⟨?_, fun hleft => ?_⟩⟩
  · obtain rfl | hr := hmem hr
    · exact hfaithful
    · exact h.faithful r hr
  · obtain rfl | hr := hmem hr
    · exact hwithout.site ▸ h.bounded t ht
    · exact h.bounded r hr
  · have hlabel : p ∈ t.labels :=
      hwithout.perm.mem_iff.2 (mem_append_left _ (Option.mem_toList.2 hp))
    exact Nat.lt_of_le_of_lt (h.arranged.le_site ht hlabel) (h.bounded t ht)
  · have hnodup := hwithout.perm_order.nodup_iff.1 (hdone ▸ h.arranged.nodup)
    refine disjoint_of_nodup_append hnodup (Option.mem_toList.2 hp) ?_
    exact (hsublist.flatMap labels).subset hleft

/-- In the program, the expressions of a statement stand one after the other. -/
theorem labels_ofStatement (i : Nat) (n : Node) :
    (ofStatement i n).labels = (range n.evaluated.length).map (⟨i, ·⟩) := by
  simp [labels, ofStatement, filterMap_map]

theorem statement_of_mem_ofStatement (i : Nat) (n : Node) :
    ∀ p ∈ (ofStatement i n).labels, p.statement = i := by
  rw [labels_ofStatement]
  exact forall_mem_map.2 fun _ _ => rfl

theorem pairwise_ofStatement (i : Nat) (n : Node) :
    (ofStatement i n).labels.Pairwise Place.Before := by
  rw [labels_ofStatement, pairwise_map]
  exact pairwise_lt_range.imp fun hlt => .inr ⟨rfl, hlt⟩

theorem isFaithful_ofStatement {n : Node} (h : body[i]? = some n) :
    (ofStatement i n).IsFaithful body := by
  refine ⟨?_, fun hdeclaration => ?_, fun p hp hlt => ?_, fun hnone => ?_⟩
  · refine forall₂_iff_get.2 ⟨by simp [ofStatement], fun j hj hj' => ?_⟩
    simp [ofStatement, Place.expression?, h]
  · have hlength := (forall₂_evaluated hdeclaration).length_eq
    refine forall₂_iff_get.2 ⟨by simpa [ofStatement] using hlength.symm, fun j hj hj' => ?_⟩
    simp [ofStatement, Place.declarator?, h]
  · have heq := statement_of_mem_ofStatement i n p hp
    exact absurd hlt (heq ▸ Nat.lt_irrefl _)
  · simp [ofStatement] at hnone

/-- The next statement stays. -/
theorem Along.stays (h : Along body i done) {n : Node} (hn : body[i]? = some n) :
    Along body (i + 1) (done ++ [ofStatement i n]) :=
  h.concat rfl (isFaithful_ofStatement hn) (pairwise_ofStatement i n) fun p hp =>
    .inl (statement_of_mem_ofStatement i n p hp)

/-- A binding is exported in place of the next statement. -/
theorem Along.exportsBinding (h : Along body i done) (key binding : Text) :
    Along body (i + 1) (done ++ [⟨exportBinding key binding, i,
      (exportBinding key binding).evaluated.map fun _ => none⟩]) := by
  let t : Placed := ⟨exportBinding key binding, i,
    (exportBinding key binding).evaluated.map fun _ => none⟩
  have hlabels : t.labels = [] := by simp [labels, t]
  have hnone {P : Place → Prop} : ∀ p ∈ t.labels, P p := by
    rw [hlabels]
    exact forall_mem_nil P
  refine h.concat (t := t) rfl
    ⟨?_, fun hn => ?_, hnone, fun _ => ⟨key, binding, rfl⟩⟩ (hlabels ▸ .nil) hnone
  · exact forall₂_map_left_iff.2 (forall₂_same.2 fun _ _ _ => nofun)
  · rw [isVarDecl_exportBinding] at hn
    cases hn

/-- The value of a variable is exported in place of the next statement. -/
theorem Along.exportsValue (h : Along body i done) {n : Node} {key x : Text}
    (hn : body[i]? = some n) (hassignment : n.exportAssignment? = some (key, x)) {ss ts : List Node}
    {d : Node.Definition} {init : Node}
    (hfind : findDefinition? x (done.map statement) = .ok (some (ss, d, ts)))
    (hvalue : d.value? = .ok (some init)) :
    Along body (i + 1) ((takeOut x done).2 ++
      [⟨exportValue key init, i, [(takeOut x done).1]⟩]) := by
  obtain ⟨⟨p, hfrom, hplace⟩, -⟩ := takeOut_eq hfind hvalue h.faithful
  obtain ⟨hremains, hnew⟩ := h.of_takeOut hfind hvalue
  rw [hfrom]
  let t : Placed := ⟨exportValue key init, i, [some p]⟩
  have hlabels : t.labels = [p] := rfl
  have hexported : p.IsExportedBy i body := ⟨n, key, x, init, hn, hassignment, hplace⟩
  have hmoved : p.statement < i ∧ t.labels = [p] ∧ p ∉ order (takeOut x done).2 :=
    ⟨(hnew p hfrom).1, hlabels, (hnew p hfrom).2⟩
  refine hremains.concat (t := t) rfl ⟨?_, fun hdeclaration => ?_, ?_, fun hnone => ?_⟩
    (pairwise_singleton _ p) (forall_mem_singleton.2 (.inr hmoved))
  · rw [evaluated_exportValue]
    refine .cons (fun p' hp' => ?_) .nil
    cases hp'
    exact Place.expression?_of_declarator? hplace rfl
  · rw [isVarDecl_exportValue] at hdeclaration
    cases hdeclaration
  · exact forall_mem_singleton.2 fun _ => hexported
  · cases mem_singleton.1 hnone

/-- The visit of a statement takes the same step along the places. -/
theorem Along.of_follow (h : Along body i done) (he : e.config.OnlyExports) (hs : s.Plain)
    {stmt : Node} (hstmt : body[i]? = some stmt) {rest left : List Node}
    (hstep : Pass.step e (done.map statement) (Visit.ofNode e stmt) rest s = .ok (left, s')) :
    (follow done (ofStatement i stmt) s s' left).map statement = left ∧
      Along body (i + 1) (follow done (ofStatement i stmt) s s' left) ∧ s'.Plain := by
  obtain ⟨hs', ⟨rfl, hextracted, htally⟩ | ⟨key, binding, rfl, hextracted, hcount⟩ |
    ⟨s₁, key, binding, remains, init, hassignment, hmoves, rfl, hextracted⟩⟩ :=
    Pass.step_of_onlyExports he hs hstep
  · -- the statement stays
    have hfollow : follow done (ofStatement i stmt) s s' (done.map statement ++ [stmt]) =
        done ++ [ofStatement i stmt] := by
      simp [follow, hextracted, htally, ofStatement]
    rw [hfollow]
    exact ⟨by simp [ofStatement], h.stays hstmt, hs'⟩
  · -- it exports a binding, and evaluates nothing
    have hfollow : follow done (ofStatement i stmt) s s'
        (done.map statement ++ [exportBinding key binding]) = done ++
        [⟨exportBinding key binding, i,
          (exportBinding key binding).evaluated.map fun _ => none⟩] := by
      simp [follow, hextracted, hcount, ofStatement]
    rw [hfollow]
    exact ⟨by simp, h.exportsBinding key binding, hs'⟩
  · -- it exports a value, which is taken out of the statement that it stood in
    obtain ⟨ss, d, ts, hfind, hvalue, rfl⟩ := hmoves.definition
    obtain ⟨-, hleft, -⟩ := takeOut_eq hfind hvalue h.faithful
    have hfollow : follow done (ofStatement i stmt) s s'
        (ss ++ d.remains ++ ts ++ [exportValue key init]) = (takeOut binding done).2 ++
        [⟨exportValue key init, i, [(takeOut binding done).1]⟩] := by
      rw [← hleft]
      simp [follow, hextracted, ofStatement]
    rw [hfollow]
    exact ⟨by simp [hleft], h.exportsValue hstmt hassignment hfind hvalue, hs'⟩

theorem map_statement_number (i : Nat) (body : List Node) :
    (number i body).map statement = body := by
  induction body generalizing i with
  | nil => rfl
  | cons n body ih => exact congrArg (n :: ·) (ih (i + 1))

/-- The visit of all statements takes the same steps. -/
theorem Along.run (he : e.config.OnlyExports) {before rest walked : List Node}
    (h : Along (before ++ rest) before.length done) (hs : s.Plain)
    (hwalked : Pass.statements e (done.map statement) rest s = .ok (walked, s')) :
    ∃ placed, run e done (number before.length rest) s = .ok (placed, s') ∧
      placed.map statement = walked ∧
      Along (before ++ rest) (before ++ rest).length placed ∧ s'.Plain := by
  induction rest generalizing before done s with
  | nil =>
    cases hwalked
    exact ⟨done, rfl, rfl, by simpa using h, hs⟩
  | cons stmt rest ih =>
    obtain ⟨left, s₁, hstep, hwalked⟩ := PassM.bind_eq_ok.1 hwalked
    have hstmt : (before ++ stmt :: rest)[before.length]? = some stmt := by simp
    obtain ⟨hleft, hnext, hs₁⟩ := h.of_follow he hs hstmt hstep
    -- the places count from the start of the body, so the statement goes over
    -- to those before
    have hbody : before ++ stmt :: rest = before ++ [stmt] ++ rest := by simp
    have hlength : before.length + 1 = (before ++ [stmt]).length := by simp
    rw [hbody, hlength] at hnext
    rw [← hleft] at hwalked
    rw [hbody]
    obtain ⟨placed, hrun, hplaced⟩ := ih hnext hs₁ hwalked
    refine ⟨placed, PassM.bind_eq_ok.2 ⟨s, s, rfl, PassM.bind_eq_ok.2 ⟨left, s₁, ?_, ?_⟩⟩, hplaced⟩
    · rw [map_statement_number]
      exact hstep
    · refine PassM.bind_eq_ok.2 ⟨s₁, s₁, rfl, ?_⟩
      rw [hlength]
      exact hrun

/-- A pass that rebuilds only exports leaves statements along the places. -/
theorem trace_eq {config : Config} {program : Node} {o : Outcome} (hconfig : config.OnlyExports)
    (h : reconstruct config program = .ok o) :
    ∃ body placed, program.statements = .ok body ∧ trace config program = .ok placed ∧
      o.program = program.withStatements (placed.map statement) ∧ Arranged placed ∧
      ∀ t ∈ placed, t.IsFaithful body := by
  have he : o.surroundings.config.OnlyExports := by
    rw [reconstruct_config h]
    exact { hconfig with }
  obtain ⟨hsurvey, body, hbody, hwalked, hkept, hadded, hprogram⟩ := reconstruct_cases h
  rcases o with ⟨_, e, state, walked, kept, added⟩
  have hstart : Pass.start e program body = { names := Names.ofProgram program } := by
    rw [Pass.start]
    exact if_neg (by rw [he.displayNames]; exact Bool.false_ne_true)
  have hplain : (Pass.start e program body).Plain := hstart ▸ ⟨rfl, rfl, rfl, rfl⟩
  have hempty : Along ([] ++ body) ([] : List Node).length [] := .nil _ _
  obtain ⟨placed, hrun, rfl, halong, hstate⟩ := hempty.run he hplain hwalked
  -- at the end, leftovers of exports go, and nothing is added
  let left := if e.config.exports && !state.exported.isEmpty then
    placed.filter (!·.statement.isExportLeftover state.exported) else placed
  have hsublist : left.Sublist placed := by
    dsimp only [left]
    split
    · exact filter_sublist
    · exact .refl _
  have hleft : Pass.renamed e state (placed.map statement) = left.map statement := by
    rw [Pass.renamed_of_entries_eq_nil hstate.renames]
    dsimp only [left]
    split
    · exact filter_map
    · rfl
  rw [hleft, Pass.idleHelpers_eq_nil hstate.imports hstate.markup] at hkept
  cases hkept
  rw [hstate.imported] at hadded
  cases hadded
  refine ⟨body, left, hbody, ?_, ?_, halong.arranged.sublist hsublist,
    fun t ht => halong.faithful t (hsublist.subset ht)⟩
  · refine bind_eq_ok.2 ⟨e, hsurvey,
      bind_eq_ok.2 ⟨body, hbody, bind_eq_ok.2 ⟨(placed, state), hrun, rfl⟩⟩⟩
  · rw [hprogram, Pass.splice_nil]

/-- A test that the statements along the places satisfy. -/
theorem of_trace {config : Config} {program : Node} {placed : List Placed} {P : List Placed → Prop}
    [DecidablePred P] (htrace : trace config program = .ok placed)
    (h : (trace config program).toOption.any (fun placed => decide (P placed)) = true) :
    P placed := by
  rw [htrace] at h
  exact of_decide_eq_true h

end Placed

/-! ## Programs -/

/-- A pass that rebuilds nothing but exports keeps the order of evaluation if
    and only if everything that is evaluated between an initializer and the
    export that it moves to, and that survives, is moved as well, and
    further. -/
theorem order_kept_iff {config : Config} {program : Node} {o : Outcome}
    (hconfig : config.OnlyExports) (h : reconstruct config program = .ok o) :
    ∃ body placed, program.statements = .ok body ∧ Placed.trace config program = .ok placed ∧
      o.program = program.withStatements (placed.map Placed.statement) ∧
      (∀ t ∈ placed, t.IsFaithful body) ∧
      (Placed.KeepsOrder placed ↔
        ∀ p i, Placed.Moved placed p i → ∀ q ∈ Placed.order placed,
          p.Before q → q.statement < i → ∃ j, Placed.Moved placed q j ∧ i < j) := by
  obtain ⟨body, placed, hbody, htrace, hprogram, harranged, hfaithful⟩ := Placed.trace_eq hconfig h
  exact ⟨body, placed, hbody, htrace, hprogram, hfaithful, harranged.keepsOrder_iff⟩

/-- The settings for exports alone. -/
def exportsAlone : Config :=
  { markup := false, classes := false, imports := false, booleans := false,
    indirectCalls := false, displayNames := false }

theorem onlyExports_exportsAlone : exportsAlone.OnlyExports :=
  ⟨rfl, rfl, rfl, rfl, rfl, rfl⟩

/-- `f()` -/
def calling (f : Text) : Node :=
  .call (.identifier f) [] false

/-- `var a = f(), b = g(); exports.a = a; exports.b = b;` -/
def bothExported : Node :=
  .program [.varDecl .var [.declarator (.identifier "a") (some (calling "f")),
    .declarator (.identifier "b") (some (calling "g"))], exporting "a", exporting "b"]

/-- `f()` moves past `g()`, which moves further. -/
theorem order_kept_iff_bothExported :
    ∃ o placed, reconstruct exportsAlone bothExported = .ok o ∧ exportsAlone.OnlyExports ∧
      o.program = bothExported.withStatements (placed.map Placed.statement) ∧
      Placed.KeepsOrder placed ∧ Placed.Moved placed ⟨0, 0⟩ 1 ∧
      ∃ j, Placed.Moved placed ⟨0, 1⟩ j ∧ 1 < j := by
  obtain ⟨o, ho, -⟩ : ∃ o, reconstruct exportsAlone bothExported = .ok o ∧
      o.state.tally.exports = 2 :=
    exists_outcome (by decide +kernel)
  obtain ⟨body, placed, -, htrace, hprogram, -, hiff⟩ := order_kept_iff onlyExports_exportsAlone ho
  have hkept : Placed.KeepsOrder placed := Placed.of_trace htrace (by decide +kernel)
  have hmoved : Placed.Moved placed ⟨0, 0⟩ 1 :=
    Placed.of_trace (P := (Placed.Moved · ⟨0, 0⟩ 1)) htrace (by decide +kernel)
  have hmem : ⟨0, 1⟩ ∈ Placed.order placed :=
    Placed.of_trace (P := (⟨0, 1⟩ ∈ Placed.order ·)) htrace (by decide +kernel)
  exact ⟨o, placed, ho, onlyExports_exportsAlone, hprogram, hkept, hmoved,
    hiff.1 hkept ⟨0, 0⟩ 1 hmoved ⟨0, 1⟩ hmem (by decide) (by decide)⟩

/-- `var a = f(); g(); exports.a = a;` -/
def overtaken : Node :=
  .program [declaring "a" (calling "f"), .exprStmt (calling "g"), exporting "a"]

/-- `f()` moves past `g()`, which stays. -/
theorem order_not_kept :
    ∃ o placed, reconstruct exportsAlone overtaken = .ok o ∧
      Placed.trace exportsAlone overtaken = .ok placed ∧
      o.program = overtaken.withStatements (placed.map Placed.statement) ∧
      Placed.order placed = [⟨1, 0⟩, ⟨0, 0⟩] ∧ ¬Placed.KeepsOrder placed := by
  obtain ⟨o, ho, -⟩ : ∃ o, reconstruct exportsAlone overtaken = .ok o ∧ o.state.tally.exports = 1 :=
    exists_outcome (by decide +kernel)
  obtain ⟨body, placed, -, htrace, hprogram, -⟩ := Placed.trace_eq onlyExports_exportsAlone ho
  have horder : Placed.order placed = [⟨1, 0⟩, ⟨0, 0⟩] :=
    Placed.of_trace (P := (Placed.order · = [⟨1, 0⟩, ⟨0, 0⟩])) htrace (by decide +kernel)
  refine ⟨o, placed, ho, htrace, hprogram, horder, ?_⟩
  rw [Placed.KeepsOrder, horder]
  decide

end Resugar
