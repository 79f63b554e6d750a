import Mathlib.Data.List.Nodup
import Mathlib.Data.List.Perm.Subperm
import Mathlib.Order.Bounds.Basic
import Resugar.Names

/-!
# New names are free

A name that is taken gets a number, and the search for the number always ends at
a free name: there are more numbers to try than names in use.
-/

namespace Resugar

open List

theorem CodePoint.ofChar_injective : Function.Injective CodePoint.ofChar := by
  intro a b h
  exact Char.ext (UInt32.toNat_inj.1 (Fin.mk.inj h))

theorem Text.ofNat_injective : Function.Injective Text.ofNat := by
  intro m n h
  have hdigits : Nat.toDigits 10 m = Nat.toDigits 10 n :=
    map_injective_iff.2 CodePoint.ofChar_injective h
  rw [← Nat.ofDigitChars_ten_toDigits (n := m), hdigits, Nat.ofDigitChars_ten_toDigits]

namespace Names

variable {ns : Names} {base name x : Text}

theorem has_iff : ns.has x = true ↔ x ∈ ns.used :=
  contains_iff_mem

theorem mem_insert : x ∈ (ns.insert name).used ↔ x ∈ ns.used ∨ x = name := by
  unfold insert
  split
  · rename_i h
    exact ⟨.inl, fun hx => hx.elim id fun hx => hx ▸ has_iff.1 h⟩
  · rw [mem_append, mem_singleton]

theorem numbered_injective (base : Text) : Function.Injective (numbered base) :=
  fun _ _ h => Text.ofNat_injective (append_cancel_left h)

/-- If the name that the search ends at is in use, so are all before it. -/
theorem has_of_has_firstFree {fuel i : Nat}
    (h : ns.has (numbered base (ns.firstFree base fuel i)) = true) :
    ∀ j ≤ fuel, ns.has (numbered base (i + j)) = true := by
  induction fuel generalizing i with
  | zero =>
    intro j hj
    rwa [Nat.le_zero.1 hj]
  | succ fuel ih =>
    intro j hj
    rw [firstFree] at h
    split at h
    · rename_i hi
      rcases j with _ | j
      · exact hi
      · rw [Nat.add_comm j, ← Nat.add_assoc]
        exact ih h j (Nat.le_of_succ_le_succ hj)
    · contradiction

/-- As many tries as there are names in use are enough to find a free one. -/
theorem numbered_firstFree_not_mem (ns : Names) (base : Text) (i : Nat) :
    numbered base (ns.firstFree base ns.used.length i) ∉ ns.used := by
  intro h
  have hall := has_of_has_firstFree (has_iff.2 h)
  -- one more candidate than there are names in use
  have hnodup : ((range (ns.used.length + 1)).map fun j => numbered base (i + j)).Nodup :=
    List.Nodup.map (fun _ _ h => Nat.add_left_cancel (numbered_injective base h)) nodup_range
  have hsubset : ((range (ns.used.length + 1)).map fun j =>
      numbered base (i + j)) ⊆ ns.used := by
    intro x hx
    obtain ⟨j, hj, rfl⟩ := mem_map.1 hx
    exact has_iff.1 (hall j (Nat.le_of_lt_succ (mem_range.1 hj)))
  have hlength := (hnodup.subperm hsubset).length_le
  rw [length_map, length_range] at hlength
  omega

/-- A fresh name is not in use. -/
theorem fresh_not_mem (ns : Names) (base : Text) : ns.fresh base ∉ ns.used := by
  unfold fresh
  split
  · exact numbered_firstFree_not_mem ns base 2
  · rename_i h
    exact fun hbase => h (has_iff.2 hbase)

/-- A numbered name ends in a digit. -/
theorem getLast?_numbered (base : Text) (i : Nat) :
    ∃ c : Char, c.isDigit = true ∧ (numbered base i).getLast? = some (CodePoint.ofChar c) := by
  have hne : Nat.toDigits 10 i ≠ [] := Nat.toDigits_ne_nil
  refine ⟨(Nat.toDigits 10 i).getLast hne,
    Nat.isDigit_of_mem_toDigits (by decide) (by decide) (getLast_mem hne), ?_⟩
  rw [numbered, Text.ofNat, getLast?_append, getLast?_map,
    getLast?_eq_some_getLast hne]
  rfl

/-- No name is changed to `undefined`. -/
theorem fresh_eq_or_ne_undefined (ns : Names) (base : Text) :
    ns.fresh base = base ∨ ns.fresh base ≠ "undefined" := by
  unfold fresh
  split
  · obtain ⟨c, hdigit, hlast⟩ := getLast?_numbered base (ns.firstFree base ns.used.length 2)
    refine .inr fun h => ?_
    rw [h] at hlast
    obtain rfl : c = 'd' := CodePoint.ofChar_injective (Option.some.inj hlast).symm
    cases hdigit
  · exact .inl rfl

/-- A binding keeps the name it has, or gets one that is not in use. -/
theorem allocate_cases (ns : Names) (base : Text) (current : Option Text) :
    current = some (ns.allocate base current).1 ∨ (ns.allocate base current).1 ∉ ns.used := by
  unfold allocate
  dsimp only
  split
  · rename_i h
    exact .inl h
  · exact .inr (fresh_not_mem ns base)

/-! ## Many names in a row

The search for a number has no bound of its own: it goes on for as long as the
names it tries are taken. `Search` is this loop, without the bound that
`Names.firstFree` is given. -/

/-- The search that tries the number `i` next ends at the number `j`. -/
inductive Search (ns : Names) (base : Text) : (i j : Nat) → Prop
  | found {i : Nat} : numbered base i ∉ ns.used → Search ns base i i
  | next {i j : Nat} : numbered base i ∈ ns.used → Search ns base (i + 1) j → Search ns base i j

/-- A search ends at the least number that makes the name free. -/
theorem Search.isLeast {i j : Nat} (h : ns.Search base i j) :
    IsLeast {k | i ≤ k ∧ numbered base k ∉ ns.used} j := by
  induction h with
  | found hfree => exact ⟨⟨Nat.le_refl _, hfree⟩, fun k hk => hk.1⟩
  | @next i j htaken _ ih =>
    refine ⟨⟨Nat.le_of_succ_le ih.1.1, ih.1.2⟩, fun k hk => ih.2 ⟨?_, hk.2⟩⟩
    have hne : i ≠ k := fun heq => hk.2 (heq ▸ htaken)
    have hle : i ≤ k := hk.1
    omega

/-- If a bounded search stops at a free name, it has ended there. -/
theorem search_of_firstFree_not_mem {fuel i : Nat}
    (h : numbered base (ns.firstFree base fuel i) ∉ ns.used) :
    ns.Search base i (ns.firstFree base fuel i) := by
  induction fuel generalizing i with
  | zero => exact .found h
  | succ fuel ih =>
    rw [firstFree] at h ⊢
    split at h
    · rename_i htaken
      rw [if_pos htaken]
      exact .next (has_iff.1 htaken) (ih h)
    · rename_i hfree
      rw [if_neg hfree]
      exact .found h

/-- The search always ends. -/
theorem search_firstFree (ns : Names) (base : Text) (i : Nat) :
    ns.Search base i (ns.firstFree base ns.used.length i) :=
  search_of_firstFree_not_mem (numbered_firstFree_not_mem ns base i)

/-- What a binding that cannot keep its name gets: the base of the name if it is
    free, and otherwise the base with the least number from 2 up that makes it
    free. From then on the name is in use. -/
structure Grants (ns : Names) (base name : Text) (ns' : Names) : Prop where
  free : name ∉ ns.used
  eq_base : base ∉ ns.used → name = base
  eq_numbered : base ∈ ns.used → ∃ i, ns.Search base 2 i ∧
    IsLeast {k | 2 ≤ k ∧ numbered base k ∉ ns.used} i ∧ name = numbered base i
  used_iff : ∀ x, x ∈ ns'.used ↔ x ∈ ns.used ∨ x = name

/-- Bindings that cannot keep their names get names, each beside the names that
    are in use by then. -/
inductive GrantsAll : Names → List (Text × Option Text) → List Text → Names → Prop
  | nil {ns : Names} : GrantsAll ns [] [] ns
  | cons {ns ns' ns'' : Names} {base name : Text} {current : Option Text}
    {rest : List (Text × Option Text)} {names : List Text} :
    ns.Grants base name ns' → GrantsAll ns' rest names ns'' →
      GrantsAll ns ((base, current) :: rest) (name :: names) ns''

/-- A single request gets what it should. -/
theorem allocate_grants (ns : Names) {base : Text} {current : Option Text}
    (h : current ≠ some base) :
    ns.Grants base (ns.allocate base current).1 (ns.allocate base current).2 := by
  have hname : (ns.allocate base current).1 = ns.fresh base := if_neg h
  have hnames : (ns.allocate base current).2 = ns.insert (ns.fresh base) := congrArg ns.insert hname
  rw [hname, hnames]
  refine ⟨fresh_not_mem ns base, fun hfree => ?_, fun htaken => ?_, fun x => mem_insert⟩
  · exact if_neg (mt has_iff.1 hfree)
  · have hsearch := search_firstFree ns base 2
    exact ⟨_, hsearch, hsearch.isLeast, if_pos (has_iff.2 htaken)⟩

/-- So do several, one after the other. -/
theorem allocateAll_grantsAll (ns : Names) {requests : List (Text × Option Text)}
    (h : ∀ r ∈ requests, r.2 ≠ some r.1) :
    GrantsAll ns requests (ns.allocateAll requests).1 (ns.allocateAll requests).2 := by
  induction requests generalizing ns with
  | nil => exact .nil
  | cons r rest ih =>
    obtain ⟨hr, hrest⟩ := forall_mem_cons.1 h
    exact .cons (allocate_grants ns hr) (ih _ hrest)

namespace GrantsAll

variable {ns' : Names} {requests : List (Text × Option Text)} {names : List Text}

/-- In the end the names in use are the old ones and those given. -/
theorem used_iff (h : GrantsAll ns requests names ns') (x : Text) :
    x ∈ ns'.used ↔ x ∈ ns.used ∨ x ∈ names := by
  induction h with
  | nil => simp
  | cons hgrants _ ih => rw [ih, hgrants.used_iff, mem_cons, or_assoc]

theorem not_mem_used (h : GrantsAll ns requests names ns') (hname : name ∈ names) :
    name ∉ ns.used := by
  induction h with
  | nil => cases hname
  | cons hgrants _ ih =>
    rcases mem_cons.1 hname with rfl | hname
    · exact hgrants.free
    · exact fun hused => ih hname ((hgrants.used_iff _).2 (.inl hused))

theorem nodup (h : GrantsAll ns requests names ns') : names.Nodup := by
  induction h with
  | nil => exact .nil
  | cons hgrants hrest ih =>
    -- the name is in use by the time that the later ones are looked for
    exact nodup_cons.2 ⟨fun hname =>
      hrest.not_mem_used hname ((hgrants.used_iff _).2 (.inr rfl)), ih⟩

end GrantsAll

/-- Name allocation is fresh and terminates. Whatever names are in use, let any
    bindings get names, one after the other, none of which may keep the name
    that it has. Every search ends, and every binding gets the base of its name
    if that is free by then, and otherwise the base with the least number from 2
    up that makes it free. The names are pairwise different, none was in use,
    and afterwards they are in use beside those that were, and no others. -/
theorem allocations_fresh (ns : Names) (requests : List (Text × Option Text))
    (h : ∀ r ∈ requests, r.2 ≠ some r.1) :
    ∃ names ns', ns.allocateAll requests = (names, ns') ∧ GrantsAll ns requests names ns' ∧
      names.Nodup ∧ (∀ name ∈ names, name ∉ ns.used) ∧
      ∀ x, x ∈ ns'.used ↔ x ∈ ns.used ∨ x ∈ names := by
  have hall := allocateAll_grantsAll ns h
  exact ⟨_, _, rfl, hall, hall.nodup, fun _ hname => hall.not_mem_used hname, hall.used_iff⟩

/-- Bindings with one base, beside one with a given name as its base. -/
def fooRequests : List (Text × Option Text) :=
  [("foo", none), ("foo2", some "_foo"), ("foo", some "bar"), ("bar", none)]

/-- Where one base is asked for more than once, the numbers go up, past a name
    that another request got. -/
theorem allocateAll_fooRequests :
    (∀ r ∈ fooRequests, r.2 ≠ some r.1) ∧
      ∃ names ns', (Names.mk ["foo"]).allocateAll fooRequests = (names, ns') ∧
        names = ["foo2", "foo22", "foo3", "bar"] ∧
        GrantsAll ⟨["foo"]⟩ fooRequests names ns' ∧ names.Nodup := by
  have hrequests : ∀ r ∈ fooRequests, r.2 ≠ some r.1 := by decide
  obtain ⟨names, ns', heq, hall, hnodup, -⟩ := allocations_fresh ⟨["foo"]⟩ fooRequests hrequests
  have hnames : ((Names.mk ["foo"]).allocateAll fooRequests).1 =
      ["foo2", "foo22", "foo3", "bar"] := by
    decide
  rw [heq] at hnames
  exact ⟨hrequests, names, ns', heq, hnames, hall, hnodup⟩

end Names

end Resugar
