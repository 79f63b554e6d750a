import Mathlib.Logic.Relation
import Resugar.Pass.Visit
import Resugar.Proofs.Names

/-!
# Steps of a pass

A visit changes the state of a pass only in a few ways (`PassState.Step`): it
counts, reserves a name that is free, takes up a module that is not imported
yet, renames a variable to the name of an import, or notes a markup call or a
declarator. All that the state promises is proved of these steps once.
-/

namespace Resugar

open List

/-! ## Computations in a pass -/

namespace PassM

variable {α β : Type} {s s' : PassState}

/-- A computation in two parts gives a result if both do, in turn. -/
theorem bind_eq_ok {m : PassM α} {f : α → PassM β} {r : β × PassState} :
    (m >>= f) s = .ok r ↔ ∃ a s₁, m s = .ok (a, s₁) ∧ f a s₁ = .ok r := by
  change m s >>= (fun p => f p.1 p.2) = .ok r ↔ _
  rw [Resugar.bind_eq_ok]
  exact ⟨fun ⟨⟨a, s₁⟩, h⟩ => ⟨a, s₁, h⟩, fun ⟨a, s₁, h⟩ => ⟨(a, s₁), h⟩⟩

/-- What needs no state leaves it. -/
theorem lift_eq_ok {x : Except Fault α} {a : α} :
    (liftM x : PassM α) s = .ok (a, s') ↔ x = .ok a ∧ s = s' := by
  cases x with
  | error e => exact ⟨nofun, nofun⟩
  | ok b =>
    constructor
    · rintro ⟨⟩
      exact ⟨rfl, rfl⟩
    · rintro ⟨⟨⟩, rfl⟩
      rfl

end PassM

/-- A new entry comes last, or is not made. -/
theorem Renaming.prefix_add (r : Renaming) (name replacement : Text) :
    r.entries <+: (r.add name replacement).entries := by
  unfold Renaming.add
  split
  · exact prefix_refl _
  · exact prefix_append ..

/-- An entry of the larger table was there before, or is the new one. -/
theorem Renaming.mem_add {r : Renaming} {name replacement : Text} {entry : Text × Text}
    (h : entry ∈ (r.add name replacement).entries) :
    entry ∈ r.entries ∨ entry = (name, replacement) := by
  unfold Renaming.add at h
  split at h
  · exact .inl h
  · exact (mem_append.1 h).imp_right mem_singleton.1

namespace PassState

/-! ## Steps -/

/-- A change of the state in a visit. -/
inductive Step : PassState → PassState → Prop
  /-- Something is counted, but no export. -/
  | count (s : PassState) (t : Tally) (h : t.exports = s.tally.exports) :
    Step s { s with tally := t }
  | reserve (s : PassState) {name : Text} (h : name ∉ s.names.used) :
    Step s { s with names := s.names.insert name }
  /-- A module is imported that is not yet, under the name of its variable or
      under a free one. -/
  | load (s : PassState) {i : Import}
    (hnew : ∀ j ∈ s.imported, ¬(j.source = i.source ∧ j.kind = i.kind))
    (hname : i.binding = i.name ∨ i.name ∉ s.names.used) :
    Step s { s with names := s.names.insert i.name, imported := s.imported ++ [i] }
  | rename (s : PassState) (binding : Text) {i : Import} (hi : i ∈ s.imported) :
    Step s { s with renames := s.renames.add binding i.name }
  | rebuild (s : PassState) (call : Node) : Step s { s with rebuilt := s.rebuilt ++ [call] }
  | note (s : PassState) (x : Sighting) : Step s { s with seen := s.seen ++ [x] }

/-- The states that steps lead to. -/
abbrev Reaches : PassState → PassState → Prop :=
  Relation.ReflTransGen Step

variable {s s' s₁ : PassState}

/-! ## Growth -/

/-- A state holds all that another one does. -/
structure Grows (s s' : PassState) : Prop where
  renames : s.renames.entries <+: s'.renames.entries
  imported : s.imported <+: s'.imported
  rebuilt : s.rebuilt <+: s'.rebuilt
  names : s.names.used ⊆ s'.names.used
  extracted : s.extracted <+: s'.extracted
  seen : s.seen <+: s'.seen
  /-- A new import has a name that is reserved, and that was free if it is not
      that of its variable. -/
  loaded : ∀ i ∈ s'.imported,
    i ∈ s.imported ∨ i.name ∈ s'.names.used ∧ (i.binding = i.name ∨ i.name ∉ s.names.used)

theorem Grows.refl (s : PassState) : s.Grows s :=
  ⟨prefix_refl _, prefix_refl _, prefix_refl _,
    List.Subset.refl _, prefix_refl _,
    prefix_refl _, fun _ => .inl⟩

theorem Grows.trans (h : s.Grows s₁) (h' : s₁.Grows s') : s.Grows s' where
  renames := h.renames.trans h'.renames
  imported := h.imported.trans h'.imported
  rebuilt := h.rebuilt.trans h'.rebuilt
  names := List.Subset.trans h.names h'.names
  extracted := h.extracted.trans h'.extracted
  seen := h.seen.trans h'.seen
  loaded i hi := by
    rcases h'.loaded i hi with hi | ⟨hname, hfree⟩
    · exact (h.loaded i hi).imp_right fun ⟨hname, hfree⟩ => ⟨h'.names hname, hfree⟩
    · exact .inr ⟨hname, hfree.imp_right fun hfree hused => hfree (h.names hused)⟩

theorem Step.grows (h : Step s s') : s.Grows s' := by
  have hinsert (name : Text) : s.names.used ⊆ (s.names.insert name).used :=
    fun x hx => Names.mem_insert.2 (.inl hx)
  have hrefl := Grows.refl s
  cases h with
  | count t => exact { hrefl with }
  | reserve h => exact { hrefl with names := hinsert _, loaded := fun _ => .inl }
  | load hnew hname =>
    refine { hrefl with
      names := hinsert _
      imported := prefix_append ..
      loaded := fun j hj => ?_ }
    refine (mem_append.1 hj).imp_right fun hj => ?_
    rw [mem_singleton.1 hj]
    exact ⟨Names.mem_insert.2 (.inr rfl), hname⟩
  | rename binding hi => exact { hrefl with renames := s.renames.prefix_add _ _ }
  | rebuild call => exact { hrefl with rebuilt := prefix_append .. }
  | note x => exact { hrefl with seen := prefix_append .. }

/-- Nothing is ever taken back. -/
theorem Reaches.grows (h : s.Reaches s') : s.Grows s' := by
  induction h with
  | refl => exact .refl s
  | tail _ hstep ih => exact ih.trans hstep.grows

/-- Steps export no variable with its value. -/
theorem Reaches.extracted_eq (h : s.Reaches s') : s'.extracted = s.extracted := by
  induction h with
  | refl => rfl
  | tail _ hstep ih => cases hstep <;> exact ih

/-- Steps make no export. -/
theorem Reaches.exported_eq (h : s.Reaches s') :
    s'.exported = s.exported ∧ s'.tally.exports = s.tally.exports := by
  induction h with
  | refl => exact ⟨rfl, rfl⟩
  | tail _ hstep ih =>
    cases hstep with
    | count t h => exact ⟨ih.1, h.trans ih.2⟩
    | _ => exact ih

/-! ## Imports -/

/-- What the state promises of imports and new names, beside some names. -/
structure Sound (names : List Text) (s : PassState) : Prop where
  reserved : names ⊆ s.names.used
  /-- No module is imported twice in the same way. -/
  apart : s.imported.Pairwise fun i j => ¬(i.source = j.source ∧ i.kind = j.kind)
  /-- An import whose name is not that of its variable has another name than the
      imports before it. -/
  fresh : s.imported.Pairwise fun i j => j.binding = j.name ∨ i.name ≠ j.name
  /-- Nor is its name one of the program. -/
  outside : ∀ i ∈ s.imported, i.binding = i.name ∨ i.name ∉ names
  named : ∀ i ∈ s.imported, i.name ∈ s.names.used
  replaced : ∀ e ∈ s.renames.entries, e.2 ∈ s.names.used

variable {names : List Text}

/-- One more reserved name breaks no promise. -/
theorem Sound.insert (hs : s.Sound names) (name : Text) :
    { s with names := s.names.insert name }.Sound names where
  reserved _ hx := Names.mem_insert.2 (.inl (hs.reserved hx))
  apart := hs.apart
  fresh := hs.fresh
  outside := hs.outside
  named i hi := Names.mem_insert.2 (.inl (hs.named i hi))
  replaced e he := Names.mem_insert.2 (.inl (hs.replaced e he))

/-- Nor does an import of a new module, under its own or a free name. -/
theorem Sound.load (hs : s.Sound names) {i : Import}
    (hnew : ∀ j ∈ s.imported, ¬(j.source = i.source ∧ j.kind = i.kind))
    (hname : i.binding = i.name ∨ i.name ∉ s.names.used) :
    { s with names := s.names.insert i.name, imported := s.imported ++ [i] }.Sound names := by
  have hinsert := hs.insert i.name
  refine { hinsert with apart := ?_, fresh := ?_, outside := ?_, named := ?_ }
  · exact pairwise_append.2
      ⟨hs.apart, pairwise_singleton .., fun j hj k hk => mem_singleton.1 hk ▸ hnew j hj⟩
  · refine pairwise_append.2 ⟨hs.fresh, pairwise_singleton .., fun j hj k hk => ?_⟩
    -- a free name is not the name of an import, as these are reserved
    rw [mem_singleton.1 hk]
    exact hname.imp_right fun hfree heq => hfree (heq ▸ hs.named j hj)
  · have hi : i.binding = i.name ∨ i.name ∉ names :=
      hname.imp_right fun hfree hmem => hfree (hs.reserved hmem)
    exact forall_mem_append.2 ⟨hs.outside, forall_mem_singleton.2 hi⟩
  · exact forall_mem_append.2
      ⟨hinsert.named, forall_mem_singleton.2 (Names.mem_insert.2 (.inr rfl))⟩

theorem Step.sound (h : Step s s') (hs : s.Sound names) : s'.Sound names := by
  cases h with
  | count t => exact { hs with }
  | reserve h => exact hs.insert _
  | load hnew hname => exact hs.load hnew hname
  | rename binding hi =>
    refine { hs with replaced := fun e he => ?_ }
    rcases Renaming.mem_add he with he | rfl
    · exact hs.replaced e he
    · exact hs.named _ hi
  | rebuild call => exact { hs with }
  | note x => exact { hs with }

theorem Reaches.sound (h : s.Reaches s') (hs : s.Sound names) : s'.Sound names := by
  induction h with
  | refl => exact hs
  | tail _ hstep ih => exact hstep.sound ih

end PassState

/-! ## What visits do to the state -/

namespace PassM

open PassState

variable {s s' : PassState} {name binding source : Text} {config : Config}

/-- A name is kept or is free, and is in use from then on. -/
theorem allocate_eq_ok {base : Text} {current : Option Text}
    (h : allocate base current s = .ok (name, s')) :
    (current = some name ∨ name ∉ s.names.used) ∧ s' = { s with names := s.names.insert name } := by
  cases h
  exact ⟨s.names.allocate_cases base current, rfl⟩

/-- A module is imported as it is already, or it is new, and then its name is
    that of the variable or free. -/
theorem importBinding_eq_ok {kind : ImportKind}
    (h : importBinding config binding source kind s = .ok (name, s')) :
    s' = s ∧ (∃ i ∈ s.imported, i.source = source ∧ i.kind = kind ∧ i.name = name) ∨
      (∀ j ∈ s.imported, ¬(j.source = source ∧ j.kind = kind)) ∧
      (binding = name ∨ name ∉ s.names.used) ∧
      s' = { s with
        names := s.names.insert name
        imported := s.imported ++ [⟨source, kind, binding, name⟩] } := by
  obtain ⟨s₁, s₂, hget, h⟩ := bind_eq_ok.1 h
  cases hget
  rcases hfind : s.imported.find? (fun i => i.source == source && i.kind == kind) with _ | i
  · rw [hfind] at h
    obtain ⟨base, s₁, hbase, h⟩ := bind_eq_ok.1 h
    obtain ⟨-, rfl⟩ := lift_eq_ok.1 hbase
    obtain ⟨name', s₁, hname', h⟩ := bind_eq_ok.1 h
    obtain ⟨hfree, rfl⟩ := allocate_eq_ok hname'
    cases h
    refine .inr ⟨fun j hj hsame => ?_, hfree.imp_left Option.some.inj, rfl⟩
    have := find?_eq_none.1 hfind j hj
    simp [hsame] at this
  · have hsame := find?_some hfind
    simp only [Bool.and_eq_true, beq_iff_eq] at hsame
    rw [hfind] at h
    cases h
    exact .inl ⟨rfl, i, mem_of_find?_eq_some hfind, hsame.1, hsame.2, rfl⟩

/-- An import that is there is shared, and otherwise one is added. -/
theorem importBinding_cases {kind : ImportKind}
    (h : importBinding config binding source kind s = .ok (name, s')) :
    s' = s ∧ (∃ i ∈ s.imported, i.name = name) ∨
      (∀ j ∈ s.imported, ¬(j.source = source ∧ j.kind = kind)) ∧
      (binding = name ∨ name ∉ s.names.used) ∧
      s' = { s with
        names := s.names.insert name
        imported := s.imported ++ [⟨source, kind, binding, name⟩] } :=
  (importBinding_eq_ok h).imp_left fun ⟨hs, i, hi, _, _, hname⟩ => ⟨hs, i, hi, hname⟩

/-- Importing a module takes steps of the pass, to an import. -/
theorem importBinding_reaches {kind : ImportKind}
    (h : importBinding config binding source kind s = .ok (name, s')) :
    s.Reaches s' ∧ ∃ i ∈ s'.imported, i.name = name := by
  obtain ⟨rfl, hi⟩ | ⟨hnew, hname, rfl⟩ := importBinding_cases h
  · exact ⟨.refl, hi⟩
  · let i : Import := ⟨source, kind, binding, name⟩
    exact ⟨.single (Step.load s (i := i) hnew hname), i,
      mem_append_right _ (mem_singleton_self _), rfl⟩

end PassM

namespace Surroundings

open PassState

variable {e : Surroundings} {s s' : PassState} {inList alone accepts : Bool} {d n : Node}
  {outside : Refs} {kind : VariableKind} {o : Option (List Node)}

/-! ### Imports -/

/-- Whether a declarator becomes an import. -/
def isImport (e : Surroundings) (inList alone : Bool) : Node → Bool
  | .declarator (.identifier _) (some init) =>
    (load? e.config.loaders e.helpers init).isSome && e.config.imports && (inList || !alone)
  | _ => false

theorem isImport_eq_false (himports : e.config.imports = false) (inList alone : Bool) (d : Node) :
    e.isImport inList alone d = false := by
  unfold isImport
  split
  · rw [himports, Bool.and_false, Bool.false_and]
  · rfl

/-- A declarator becomes an import, and its variable gets that name. -/
inductive TakesImport (e : Surroundings) (inList alone : Bool) (s : PassState) :
    Node → PassState → Prop
  | take {binding source name : Text} {init : Node} {kind : ImportKind} {s₁ : PassState}
    (hload : load? e.config.loaders e.helpers init = some (source, kind))
    (hname : PassM.importBinding e.config binding source kind s = .ok (name, s₁)) :
    TakesImport e inList alone s (.declarator (.identifier binding) (some init))
      { s₁ with
        renames := s₁.renames.add binding name
        seen := s₁.seen ++ [⟨.declarator (.identifier binding) (some init), inList,
          alone, .loaded binding name⟩]
        tally := { s₁.tally with imports := s₁.tally.imports + 1 } }

/-- A declarator becomes an import if and only if it can. -/
theorem takeImport_cases {taken : Bool} (h : e.takeImport inList alone d s = .ok (taken, s')) :
    taken = e.isImport inList alone d ∧
      (taken = false ∧ s' = s ∨ taken = true ∧ e.TakesImport inList alone s d s') := by
  unfold takeImport at h
  split at h
  · rename_i binding init
    rcases hload : load? e.config.loaders e.helpers init with _ | ⟨source, kind⟩
    · rw [hload] at h
      cases h
      exact ⟨by rw [isImport, hload]; rfl, .inl ⟨rfl, rfl⟩⟩
    · rw [hload] at h
      dsimp only at h
      split at h
      · rename_i hplace
        obtain ⟨name, s₁, hname, h⟩ := PassM.bind_eq_ok.1 h
        cases h
        exact ⟨by rw [isImport, hload, Option.isSome_some, Bool.true_and, hplace],
          .inr ⟨rfl, .take hload hname⟩⟩
      · rename_i hplace
        cases h
        exact ⟨by simpa [isImport, hload] using hplace, .inl ⟨rfl, rfl⟩⟩
  · rename_i hd
    cases h
    refine ⟨?_, .inl ⟨rfl, rfl⟩⟩
    rw [isImport]
    exact hd

/-- Taking an import takes steps of the pass. -/
theorem TakesImport.reaches (h : e.TakesImport inList alone s d s') : s.Reaches s' := by
  obtain ⟨hload, hname⟩ := h
  obtain ⟨hreach, i, hi, rfl⟩ := PassM.importBinding_reaches hname
  exact ((hreach.tail (.rename _ _ hi)).tail (.note _ _)).tail (.count _ _ rfl)

/-! ### Classes -/

/-- A class gets the name that its factory says, or a free one. -/
theorem nameClass_cases {f : Factory} {name : Text} (h : nameClass f outside s = .ok (name, s')) :
    name = f.className ∧ s' = s ∨ f.encoding = .newWrapped ∧ f.className ≠ f.binding ∧
      name = s.names.fresh f.className ∧ s' = { s with names := s.names.insert name } := by
  rw [nameClass] at h
  split at h
  · rename_i hwrapped
    cases h
    exact .inr ⟨hwrapped.1, hwrapped.2.1, rfl, rfl⟩
  · cases h
    exact .inl ⟨rfl, rfl⟩

/-- Naming a class takes steps of the pass. -/
theorem nameClass_reaches {f : Factory} {name : Text} (h : nameClass f outside s = .ok (name, s')) :
    s.Reaches s' := by
  obtain ⟨-, rfl⟩ | ⟨-, -, rfl, rfl⟩ := nameClass_cases h
  · exact .refl
  · exact .single (.reserve s (s.names.fresh_not_mem _))

/-- What becomes of a declarator that may hold a class. -/
inductive ClassAt (e : Surroundings) (kind : VariableKind) (inList alone : Bool)
    (d : Node) (s : PassState) : Option (List Node) → PassState → Prop
  | off (h : e.config.classes = false) : ClassAt e kind inList alone d s none s
  | noFactory (h : Factory.ofDeclarator? d = .ok none) : ClassAt e kind inList alone d s none s
  /-- The factory is no class, or the statements for it cannot stand there. -/
  | declined {f : Factory} {outside : Refs} {name : Text} {s₁ : PassState} {c : Option RebuiltClass}
    (hf : Factory.ofDeclarator? d = .ok (some f)) (hname : nameClass f outside s = .ok (name, s₁))
    (hc : f.rebuild name = .ok c)
    (hplace : ∀ ss, c.bind (f.toStatements kind name) = some ss →
      (inList || (alone && ss.length == 1)) = false) :
    ClassAt e kind inList alone d s none s₁
  | rebuilt {f : Factory} {outside : Refs} {name : Text} {s₁ : PassState}
    {c : RebuiltClass} {ss : List Node}
    (hclasses : e.config.classes = true) (hf : Factory.ofDeclarator? d = .ok (some f))
    (hname : nameClass f outside s = .ok (name, s₁)) (hc : f.rebuild name = .ok (some c))
    (hss : f.toStatements kind name c = some ss)
    (hplace : (inList || (alone && ss.length == 1)) = true) :
    ClassAt e kind inList alone d s (some ss)
      { s₁ with
        seen := s₁.seen ++ [⟨d, inList, alone, .rebuilt f name ss⟩]
        tally := { s₁.tally with classes := s₁.tally.classes + 1 } }

/-- What can become of a declarator that may hold a class: classes are left
    alone, there is no factory, the factory is no class or there is no room for
    the statements, or the class is rebuilt. -/
theorem classAt?_cases (h : e.classAt? kind inList alone outside d s = .ok (o, s')) :
    e.ClassAt kind inList alone d s o s' := by
  rw [classAt?] at h
  split at h
  · rename_i hclasses
    obtain ⟨f?, s₁, hlift, h⟩ := PassM.bind_eq_ok.1 h
    obtain ⟨hf?, rfl⟩ := PassM.lift_eq_ok.1 hlift
    rcases f? with _ | f
    · cases h
      exact .noFactory hf?
    · obtain ⟨name, s₁, hname, h⟩ := PassM.bind_eq_ok.1 h
      obtain ⟨c, s₂, hlift, h⟩ := PassM.bind_eq_ok.1 h
      obtain ⟨hc, rfl⟩ := PassM.lift_eq_ok.1 hlift
      rcases hss : c.bind (f.toStatements kind name) with _ | ss
      · rw [hss] at h
        cases h
        exact .declined hf? hname hc fun ss hss' => absurd (hss.symm.trans hss') nofun
      · rw [hss] at h
        dsimp only at h
        split at h
        · rename_i hplace
          cases h
          obtain ⟨c, rfl, hss⟩ := Option.bind_eq_some_iff.1 hss
          exact .rebuilt hclasses hf? hname hc hss hplace
        · rename_i hplace
          cases h
          -- there is a class, but no place for its statements
          refine .declined hf? hname hc fun ss' hss' => ?_
          rw [← Option.some.inj (hss.symm.trans hss')]
          exact Bool.not_eq_true _ ▸ hplace
  · rename_i hclasses
    cases h
    exact .off (Bool.not_eq_true _ ▸ hclasses)

/-- Whatever becomes of it takes steps of the pass. -/
theorem ClassAt.reaches (h : e.ClassAt kind inList alone d s o s') : s.Reaches s' := by
  cases h with
  | off => exact .refl
  | noFactory => exact .refl
  | declined hf hname => exact nameClass_reaches hname
  | rebuilt hclasses hf hname =>
    exact ((nameClass_reaches hname).tail (.note _ _)).tail (.count _ _ rfl)

/-- No variable gets a new name by a class, and nothing is imported. -/
theorem ClassAt.keeps (h : e.ClassAt kind inList alone d s o s') :
    s'.renames = s.renames ∧ s'.imported = s.imported ∧ s'.tally.imports = s.tally.imports ∧
      s'.tally.markup = s.tally.markup := by
  have hname {f : Factory} {outside : Refs} {name : Text} {s₁ : PassState}
      (h : nameClass f outside s = .ok (name, s₁)) : s₁.renames = s.renames ∧
      s₁.imported = s.imported ∧ s₁.tally.imports = s.tally.imports ∧
      s₁.tally.markup = s.tally.markup := by
    obtain ⟨-, rfl⟩ | ⟨-, -, -, rfl⟩ := nameClass_cases h <;> exact ⟨rfl, rfl, rfl, rfl⟩
  cases h with
  | off => exact ⟨rfl, rfl, rfl, rfl⟩
  | noFactory => exact ⟨rfl, rfl, rfl, rfl⟩
  | declined hf h => exact hname h
  | rebuilt hclasses hf h => exact (hname h :)

/-! ### Nodes -/

/-- What stands for a node once those below are visited, elements apart. -/
def tidied (e : Surroundings) (r : Renaming) (n : Node) : Node :=
  match n with
  | .identifier name => .identifier (r.apply name)
  | .member .. => (r.collapse? n).getD n
  | .call callee arguments o =>
    if e.config.indirectCalls then .call callee.unwrapIndirectCallee arguments o else n
  | .unary operator argument =>
    if e.config.booleans then (Node.restoredBoolean? operator argument).getD n else n
  | _ => n

/-- An element takes the place of a markup call. -/
inductive Marks (e : Surroundings) (s : PassState) : Node → Node → PassState → Prop
  | mark {callee n' : Node} {arguments : List Node} {o : Bool}
    (h : e.dialect.element? (.call callee arguments o) = .ok (some n')) :
    Marks e s (.call callee arguments o) n'
      { s with
        rebuilt := s.rebuilt ++ [.call callee arguments o]
        tally := { s.tally with markup := s.tally.markup + 1 } }

/-- A node is left alone, or an element stands for it and is counted. -/
theorem markupAt?_cases {o : Option Node} (h : e.markupAt? accepts n s = .ok (o, s')) :
    o = none ∧ s' = s ∨ ∃ element, o = some element ∧ e.dialect.element? n = .ok (some element) ∧
      s' = { s with
        rebuilt := s.rebuilt ++ [n]
        tally := { s.tally with markup := s.tally.markup + 1 } } := by
  rw [markupAt?] at h
  split at h
  · obtain ⟨o', s₁, hlift, h⟩ := PassM.bind_eq_ok.1 h
    obtain ⟨ho', rfl⟩ := PassM.lift_eq_ok.1 hlift
    rcases o' with _ | element <;> cases h
    · exact .inl ⟨rfl, rfl⟩
    · exact .inr ⟨element, rfl, ho', rfl⟩
  · cases h
    exact .inl ⟨rfl, rfl⟩

/-- A visited node is tidied, or an element takes its place. -/
theorem settle_cases {n' : Node} (h : e.settle accepts n s = .ok (n', s')) :
    n' = e.tidied s.renames n ∧ s' = s ∨ e.Marks s n n' s' := by
  unfold settle at h
  split at h
  · cases h
    exact .inl ⟨rfl, rfl⟩
  · cases h
    exact .inl ⟨rfl, rfl⟩
  · obtain ⟨o, s₁, ho, hrest⟩ := PassM.bind_eq_ok.1 h
    obtain ⟨rfl, rfl⟩ | ⟨element, rfl, helement, rfl⟩ := markupAt?_cases ho
    · cases hrest
      exact .inl ⟨rfl, rfl⟩
    · cases hrest
      exact .inr (.mark helement)
  · cases h
    exact .inl ⟨rfl, rfl⟩
  · cases h
    refine .inl ⟨?_, rfl⟩
    rw [tidied] <;> assumption

/-- Settling a node takes steps of the pass. -/
theorem settle_reaches {n' : Node} (h : e.settle accepts n s = .ok (n', s')) : s.Reaches s' := by
  obtain ⟨-, rfl⟩ | hmarks := settle_cases h
  · exact .refl
  · cases hmarks
    exact (Relation.ReflTransGen.single (.rebuild s _)).tail (.count _ _ (by rfl))

end Surroundings

end Resugar
