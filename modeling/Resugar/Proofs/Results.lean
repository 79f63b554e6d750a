import Mathlib.Data.List.Forall2
import Resugar.Fault

/-!
# Lists that correspond, and computations over them

What a computation that may fail gives for the members of a list, it gives one
for one (`forall₂_of_mapM`), and it fails for the list if it fails for a member
(`isOk_mapM`).
-/

namespace Resugar

/-! ## Lists that correspond -/

/-- What takes the place of the elements of a list, one for one. -/
theorem exists_of_forall₂ {α β : Type} {R : α → β → Prop} {l : List α} {l' : List β}
    (h : List.Forall₂ R l l') {b : β} (hb : b ∈ l') : ∃ a ∈ l, R a b := by
  induction h with
  | nil => cases hb
  | cons hab _ ih =>
    rcases List.mem_cons.1 hb with rfl | hb
    · exact ⟨_, List.mem_cons_self, hab⟩
    · obtain ⟨a, ha, hR⟩ := ih hb
      exact ⟨a, List.mem_cons_of_mem _ ha, hR⟩

/-- Lists related item by item to a third one are related to each other. -/
theorem forall₂_comp {α β γ : Type} {R : α → β → Prop} {R' : β → γ → Prop} {S : α → γ → Prop}
    {l : List α} {m : List β} {k : List γ} (h : List.Forall₂ R l m) (h' : List.Forall₂ R' m k)
    (hS : ∀ a b c, R a b → R' b c → S a c) : List.Forall₂ S l k := by
  induction h generalizing k with
  | nil =>
    cases h'
    exact .nil
  | cons hab _ ih =>
    obtain _ | ⟨hbc, hrest⟩ := h'
    exact .cons (hS _ _ _ hab hbc) (ih hrest)

/-- What corresponds to the members of a list, each with its proof. -/
theorem forall₂_of_attach {α β : Type} {R : α → β → Prop} {l : List α} {r : List β}
    (h : List.Forall₂ (fun (a : { a // a ∈ l }) b => R a.1 b) l.attach r) : List.Forall₂ R l r := by
  rw [← List.attach_map_subtype_val l]
  exact List.forall₂_map_left_iff.2 h

/-! ## Computations that may fail -/

section

variable {α β : Type}

/-- A run over a list relates each item to what it gives. -/
theorem forall₂_of_mapM {f : α → Except Fault β} {l : List α} {r : List β} (h : l.mapM f = .ok r) :
    List.Forall₂ (fun a b => f a = .ok b) l r := by
  induction l generalizing r with
  | nil =>
    cases h
    exact .nil
  | cons a l ih =>
    rw [List.mapM_cons] at h
    obtain ⟨b, hb, h⟩ := bind_eq_ok.1 h
    obtain ⟨r', hr', h⟩ := bind_eq_ok.1 h
    cases h
    exact .cons hb (ih hr')

/-- The same where a step can give nothing. -/
theorem forall₂_of_mapM? {f : α → Option β} {l : List α} {r : List β} (h : l.mapM f = some r) :
    List.Forall₂ (fun a b => f a = some b) l r := by
  induction l generalizing r with
  | nil =>
    cases h
    exact .nil
  | cons a l ih =>
    rw [List.mapM_cons] at h
    obtain ⟨b, hb, h⟩ := Option.bind_eq_some_iff.1 h
    obtain ⟨r', hr', h⟩ := Option.bind_eq_some_iff.1 h
    cases h
    exact .cons hb (ih hr')

/-- A computation whose result is changed fails as before. -/
theorem map_eq_error {x : Except Fault α} {f : α → β} {e : Fault} :
    f <$> x = .error e ↔ x = .error e := by
  cases x with
  | error e' =>
    exact ⟨fun h => congrArg _ (Except.error.inj h), fun h => congrArg _ (Except.error.inj h)⟩
  | ok a => exact ⟨fun h => (by cases h), fun h => (by cases h)⟩

theorem isOk_mapM {f : α → Except Fault β} {l : List α} :
    (l.mapM f).isOk = l.all fun a => (f a).isOk := by
  induction l with
  | nil => rfl
  | cons a l ih =>
    rw [List.mapM_cons, List.all_cons, ← ih]
    cases f a with
    | error e => rfl
    | ok b => cases l.mapM f <;> rfl

/-- Whatever a computation gives has a property. -/
def AllOk (P : α → Prop) (x : Except Fault α) : Prop :=
  ∀ a, x = .ok a → P a

theorem allOk_ok {P : α → Prop} {a : α} (h : P a) : AllOk P (.ok a) := by
  rintro _ ⟨⟩
  exact h

/-- For a computation in two parts it is enough to look at what the second gives
    after the first. -/
theorem allOk_bind {P : β → Prop} {x : Except Fault α} {f : α → Except Fault β}
    (h : ∀ a, x = .ok a → AllOk P (f a)) : AllOk P (x >>= f) := by
  intro b hb
  obtain ⟨a, ha, hb⟩ := bind_eq_ok.1 hb
  exact h a ha b hb

theorem eq_ok_of_join {x : Except Fault (Option α)} {a : α} (h : x.toOption.join = some a) :
    x = .ok (some a) := by
  cases x with
  | error => cases h
  | ok o => exact congrArg Except.ok h

end

end Resugar
