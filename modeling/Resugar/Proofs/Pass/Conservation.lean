import Resugar.Proofs.Pass.DisplayNames
import Resugar.Proofs.Printer.Import

/-!
# What a pass over imports keeps

A pass that rebuilds imports takes declarators away, wherever they stand, and
puts import declarations before the statements of the program. All else is meant
to stay: every statement in its place, with other names and without the
declarators that were taken, but for declarations of which nothing is left and
for helpers of which no use is left.
-/

namespace Resugar

open Node List Renaming

/-- The module that a declarator loads, and how. -/
def Surroundings.loaded? (e : Surroundings) : Node → Option (Text × ImportKind)
  | .declarator (.identifier _) (some init) => load? e.config.loaders e.helpers init
  | _ => none

/-- The declarators that become imports, in the order of the visit. -/
def PassState.accepted (s : PassState) : List Node :=
  (s.seen.filter (·.verdict.isImport)).map Sighting.declarator

/-! ## Trees without some declarators -/

section

-- what may become of one node: some declarators are taken from it, and some
-- nodes are left
variable (R : Node → List Node → List Node → Prop)

/-- What becomes of the nodes of a list. -/
inductive EachItem : List (Option Node) → List Node → List (Option Node) → Prop
  | nil : EachItem [] [] []
  | hole {os os' : List (Option Node)} {taken : List Node} (rest : EachItem os taken os') :
    EachItem (none :: os) taken (none :: os')
  | node {n : Node} {ns taken taken' : List Node} {os os' : List (Option Node)}
    (first : R n taken ns) (rest : EachItem os taken' os') :
    EachItem (some n :: os) (taken ++ taken') (ns.map some ++ os')

/-- What becomes of the contents of a field; one node stays one. -/
inductive EachSlot : Slot Node → List Node → Slot Node → Prop
  | none : EachSlot (.single none) [] (.single none)
  | single {n n' : Node} {taken : List Node} (h : R n taken [n']) :
    EachSlot (.single (some n)) taken (.single (some n'))
  | list {os os' : List (Option Node)} {taken : List Node} (h : EachItem R os taken os') :
    EachSlot (.list os) taken (.list os')

/-- What becomes of the fields of a node; those that are not walked stay. -/
inductive EachField : List (Field Node) → List Node → List (Slot Node) → Prop
  | nil : EachField [] [] []
  | walked {f : Field Node} {fs : List (Field Node)} {slot : Slot Node} {slots : List (Slot Node)}
    {taken taken' : List Node} (hf : f.walked = true) (first : EachSlot R f.slot taken slot)
    (rest : EachField fs taken' slots) : EachField (f :: fs) (taken ++ taken') (slot :: slots)
  | kept {f : Field Node} {fs : List (Field Node)} {slots : List (Slot Node)} {taken : List Node}
    (hf : f.walked = false) (rest : EachField fs taken slots) :
    EachField (f :: fs) taken (f.slot :: slots)

/-- What becomes of declarators: those that load a module may be taken. -/
inductive EachDeclarator (e : Surroundings) : List Node → List Node → List Node → Prop
  | nil : EachDeclarator e [] [] []
  | removed {n d : Node} {ns ds taken taken' : List Node} (hn : n.isDeclarator = true)
    (first : R n taken [d]) (hload : (e.loaded? d).isSome = true)
    (rest : EachDeclarator e ns taken' ds) : EachDeclarator e (n :: ns) (taken ++ d :: taken') ds
  | kept {n : Node} {ns ms ds taken taken' : List Node} (first : R n taken ms)
    (rest : EachDeclarator e ns taken' ds) : EachDeclarator e (n :: ns) (taken ++ taken') (ms ++ ds)

end

/-- What may become of a node: names get other names by a table, `a.default`
    becomes `a` if `a` is in the table, and declarators are taken that load a
    module. A declaration goes if its last node is a declarator and all are
    taken; every other node stays. -/
inductive Conserves (e : Surroundings) (r : Renaming) : Node → List Node → List Node → Prop
  | name {x y : Text} (h : y = x ∨ (x, y) ∈ r.entries) :
    Conserves e r (identifier x) [] [identifier y]
  | node {n : Node} {taken : List Node} {slots : List (Slot Node)}
    (hname : n.identifierName? = none) (hdeclaration : n.isVarDecl = false)
    (h : EachField (Conserves e r) n.fields taken slots) : Conserves e r n taken [n.withSlots slots]
  | collapsed {n : Node} {taken : List Node} {slots : List (Slot Node)} {y : Text}
    (h : EachField (Conserves e r) n.fields taken slots)
    (hdefault : (n.withSlots slots).IsDefaultOf y) (hy : r.isBinding y = true) :
    Conserves e r n taken [identifier y]
  | declaration {kind : VariableKind} {ds taken ds' : List Node}
    (h : EachDeclarator (Conserves e r) e ds taken ds')
    (hstays : ds' ≠ [] ∨ ds.getLast?.any isDeclarator = false) :
    Conserves e r (varDecl kind ds) taken [varDecl kind ds']
  | gone {kind : VariableKind} {ds taken : List Node}
    (h : EachDeclarator (Conserves e r) e ds taken [])
    (hlast : ds.getLast?.any isDeclarator = true) : Conserves e r (varDecl kind ds) taken []

/-! ## Visits -/

/-- Nothing is rebuilt but imports. -/
structure Config.OnlyImports (config : Config) : Prop where
  markup : config.markup = false
  classes : config.classes = false
  imports : config.imports = true
  exports : config.exports = false
  booleans : config.booleans = false
  indirectCalls : config.indirectCalls = false
  displayNames : config.displayNames = false

variable {e : Surroundings} {r : Renaming} {s s' : PassState} {inList alone : Bool} {d n : Node}
  {x : Text} {ns taken body : List Node}

/-- Looking for a class takes up no declarator for an import. -/
theorem Surroundings.ClassAt.accepted_eq {kind : VariableKind} {o : Option (List Node)}
    (h : e.ClassAt kind inList alone d s o s') : s'.accepted = s.accepted := by
  have hname {f : Factory} {outside : Refs} {name : Text} {s₁ : PassState}
      (h : nameClass f outside s = .ok (name, s₁)) : s₁.seen = s.seen := by
    obtain ⟨-, rfl⟩ | ⟨-, -, -, rfl⟩ := nameClass_cases h <;> rfl
  cases h with
  | off => rfl
  | noFactory => rfl
  | declined hf h => rw [PassState.accepted, hname h, PassState.accepted]
  | rebuilt hclasses hf h => simp [PassState.accepted, hname h, Verdict.isImport]

/-- What is a name in a table is one in every table that goes on from it. -/
theorem Renaming.isBinding_mono {r' : Renaming} (hr : r.entries <+: r'.entries)
    (h : r.isBinding x = true) : r'.isBinding x = true := by
  obtain ⟨entry, hentry, hx⟩ := any_eq_true.1 h
  exact any_eq_true.2 ⟨entry, hr.subset hentry, hx⟩

namespace PassState

theorem accepted_noting (s : PassState) {x : Sighting} (hx : x.verdict.isImport = false) :
    { s with seen := s.seen ++ [x] }.accepted = s.accepted := by
  simp [accepted, hx]

/-- A visit takes up some declarators, if a table has its new names. -/
structure Takes (r : Renaming) (s s' : PassState) (P : List Node → Prop) : Prop where
  reaches : s.Reaches s'
  taken : s'.renames.entries <+: r.entries → ∃ taken, s'.accepted = s.accepted ++ taken ∧ P taken

variable {s₁ : PassState} {P Q U : List Node → Prop}

/-- Nothing is taken up. -/
theorem Takes.none (hreach : s.Reaches s') (haccepted : s'.accepted = s.accepted) (h : P []) :
    s.Takes r s' P :=
  ⟨hreach, fun _ => ⟨[], by rw [haccepted, append_nil], h⟩⟩

/-- What holds of the declarators that a visit takes up may be weakened. -/
theorem Takes.mono (h : s.Takes r s' P)
    (hPQ : ∀ taken, s'.renames.entries <+: r.entries → P taken → Q taken) : s.Takes r s' Q :=
  ⟨h.reaches, fun hr => (h.taken hr).imp fun taken htaken => ⟨htaken.1, hPQ taken hr htaken.2⟩⟩

/-- One visit after another. -/
theorem Takes.append (h : s.Takes r s₁ P) (h' : s₁.Takes r s' Q)
    (hPQ : ∀ taken taken', P taken → Q taken' → U (taken ++ taken')) : s.Takes r s' U := by
  refine ⟨h.reaches.trans h'.reaches, fun hr => ?_⟩
  obtain ⟨taken, htaken, hP⟩ := h.taken (h'.reaches.grows.renames.trans hr)
  obtain ⟨taken', htaken', hQ⟩ := h'.taken hr
  exact ⟨taken ++ taken', by rw [htaken', htaken, append_assoc], hPQ taken taken' hP hQ⟩

/-- What came before a visit without taking anything up makes no difference. -/
theorem Takes.after (h : s₁.Takes r s' P) (hreach : s.Reaches s₁)
    (haccepted : s₁.accepted = s.accepted) : s.Takes r s' P :=
  (none hreach haccepted rfl : s.Takes r s₁ (· = [])).append h fun _ _ hnil hP => hnil ▸ hP

end PassState

/-- A declarator that becomes an import is taken up. -/
theorem Surroundings.TakesImport.accepted_eq (h : e.TakesImport inList alone s d s') :
    s'.accepted = s.accepted ++ [d] := by
  obtain @⟨binding, source, name, init, kind, s₁, hload, hname⟩ := h
  have hseen : s₁.seen = s.seen := by
    obtain ⟨rfl, -⟩ | ⟨-, -, rfl⟩ := PassM.importBinding_cases hname <;> rfl
  simp [PassState.accepted, hseen, Verdict.isImport]

/-- What an import says of its module: which one, and how it is imported. -/
def Import.key (i : Import) : Text × ImportKind :=
  (i.source, i.kind)

/-- Its module is imported, once for each kind. -/
theorem Surroundings.TakesImport.imported_cases (h : e.TakesImport inList alone s d s') :
    ∃ key, e.loaded? d = some key ∧
      (key ∈ s.imported.map Import.key ∧ s'.imported = s.imported ∨
        key ∉ s.imported.map Import.key ∧ ∃ i : Import, i.key = key ∧
        s'.imported = s.imported ++ [i]) := by
  obtain @⟨binding, source, name, init, kind, s₁, hload, hname⟩ := h
  refine ⟨(source, kind), hload, ?_⟩
  obtain ⟨rfl, i, hi, rfl, rfl, -⟩ | ⟨hnew, -, rfl⟩ := PassM.importBinding_eq_ok hname
  · exact .inl ⟨mem_map_of_mem hi, rfl⟩
  · refine .inr ⟨fun hmem => ?_, ⟨source, kind, binding, name⟩, rfl, rfl⟩
    obtain ⟨j, hj, hkey⟩ := mem_map.1 hmem
    exact hnew j hj (Prod.mk.inj hkey)

namespace Visit

/-- A visit leaves of a node what may become of it, and takes up the declarators
    that it takes away. -/
def Conserving (e : Surroundings) (r : Renaming) : Law := fun _ n s ns s' =>
  s.Takes r s' fun taken => Conserves e r n taken ns

/-- The visits to the nodes of a list take up what they take away, in order. -/
theorem InList.conserving {os os' : List (Option Node)} (h : InList (Conserving e r) os s os' s') :
    s.Takes r s' fun taken => EachItem (Conserves e r) os taken os' := by
  induction h with
  | nil => exact .none .refl rfl .nil
  | hole rest ih => exact ih.mono fun _ _ => .hole
  | node first rest ih => exact first.append ih fun _ _ => .node

/-- So do those to what a field holds. -/
theorem InSlot.conserving {slot slot' : Slot Node} (h : InSlot (Conserving e r) slot s slot' s') :
    s.Takes r s' fun taken => EachSlot (Conserves e r) slot taken slot' := by
  cases h with
  | none => exact .none .refl rfl .none
  | single h => exact h.mono fun _ _ => .single
  | list h => exact h.conserving.mono fun _ _ => .list

/-- So do those to the fields of a node; unwalked fields stay. -/
theorem InFields.conserving {fs : List (Field Node)} {slots : List (Slot Node)}
    (h : InFields (Conserving e r) fs s slots s') :
    s.Takes r s' fun taken => EachField (Conserves e r) fs taken slots := by
  induction h with
  | nil => exact .none .refl rfl .nil
  | walked hf first rest ih => exact first.conserving.append ih fun _ _ => .walked hf
  | kept hf rest ih => exact ih.mono fun _ _ => .kept hf

/-- What is left of a declaration: it with some declarators, or nothing. -/
inductive DeclarationLeft (kind : VariableKind) (ds ds' : List Node) : List Node → Prop
  | stays (h : ds' ≠ [] ∨ ds.getLast?.all isDeclarator = false) :
    DeclarationLeft kind ds ds' [.varDecl kind ds']
  | gone (hds' : ds' = []) (hlast : ds.getLast?.all isDeclarator = true) :
    DeclarationLeft kind ds ds' []

/-- A node before others does not change what is left, unless it is last. -/
theorem DeclarationLeft.cons {kind : VariableKind} {n : Node} {ds ds' ss : List Node}
    (h : DeclarationLeft kind ds ds' ss) (hn : ds = [] → ds' = [] → n.isDeclarator = true) :
    DeclarationLeft kind (n :: ds) ds' ss := by
  rcases ds with _ | ⟨m, ds⟩
  · cases h with
    | stays h => exact .stays (h.imp_right fun h => Bool.noConfusion h)
    | gone hds' => exact .gone hds' (hn rfl hds')
  · cases h with
    | stays h => exact .stays h
    | gone hds' hlast => exact .gone hds' hlast

/-- `done` stays, and of the other nodes stays what may become of them. -/
theorem InDeclaration.conserving (he : e.config.OnlyImports) {kind : VariableKind} {inList : Bool}
    {done ds ss : List Node} (h : InDeclaration (Conserving e r) e kind inList done ds s ss s') :
    s.Takes r s' fun taken => ∃ ds', EachDeclarator (Conserves e r) e ds taken ds' ∧
      DeclarationLeft kind ds (done ++ ds') ss := by
  induction h with
  | nil done s =>
    refine .none .refl rfl ⟨[], .nil, ?_⟩
    rw [append_nil, declaration]
    split
    · rename_i hdone
      exact .gone (List.isEmpty_iff.1 hdone) rfl
    · rename_i hdone
      exact .stays (.inl (mt List.isEmpty_iff.2 hdone))
  | rebuilt hn first hclass others =>
    obtain _ | _ | _ | ⟨hclasses⟩ := hclass
    rw [he.classes] at hclasses
    cases hclasses
  | @loaded done n d rest ns s s₁ s₂ s₃ s' hn first hclass himport hplace others ih =>
    obtain ⟨key, hload, -⟩ := himport.imported_cases
    have hload : (e.loaded? d).isSome = true := hload ▸ rfl
    have hd : s₂.Takes r s₃ (· = [d]) := ⟨himport.reaches, fun _ => ⟨[d], himport.accepted_eq, rfl⟩⟩
    -- the declarator goes once the nodes below it are visited, so it comes
    -- after those taken from them
    have hremoved : s.Takes r s₃ fun taken => ∀ {taken' ds'},
        EachDeclarator (Conserves e r) e rest taken' ds' →
        EachDeclarator (Conserves e r) e (n :: rest) (taken ++ taken') ds' := by
      refine first.append (hd.after hclass.reaches hclass.accepted_eq) ?_
      rintro taken _ hfirst rfl taken' ds' hrest
      rw [append_assoc]
      exact .removed hn hfirst hload hrest
    refine hremoved.append ih ?_
    rintro taken taken' hfirst ⟨ds', hds', hleft⟩
    exact ⟨ds', hfirst hds', hleft.cons fun _ _ => hn⟩
  | @kept done n d rest ns s s₁ s₂ s' hn first hclass himport others ih =>
    have hrest := (ih.after (.single (.note s₂ _)) (s₂.accepted_noting rfl)).after
      hclass.reaches hclass.accepted_eq
    refine first.append hrest ?_
    rintro taken taken' hfirst ⟨ds', hds', hleft⟩
    rw [append_assoc] at hleft
    exact ⟨d :: ds', .kept hfirst hds', hleft.cons fun _ _ => hn⟩
  | @other done n rest ms ns s s₁ s' hn first hsome others ih =>
    refine first.append ih ?_
    rintro taken taken' hfirst ⟨ds', hds', hleft⟩
    rw [append_assoc] at hleft
    refine ⟨ms ++ ds', .kept hfirst hds', hleft.cons fun hrest hnone => ?_⟩
    -- then nothing would be left of the declaration
    simp_all
  | empty hn first =>
    refine first.mono fun taken _ hfirst => ⟨[], ?_, .stays (.inr ?_)⟩
    · have hone := EachDeclarator.kept hfirst (e := e) .nil
      rwa [append_nil] at hone
    · exact hn

/-- A node is renamed once those below it are, by the table of then. -/
theorem conserves_rename? {r' : Renaming} (hr : r'.entries <+: r.entries) {n : Node}
    {taken : List Node} {slots : List (Slot Node)} (hn : ∀ kind ds, n ≠ .varDecl kind ds)
    (h : EachField (Conserves e r) n.fields taken slots) :
    Conserves e r n taken [(r'.rename? (n.withSlots slots)).getD (n.withSlots slots)] := by
  rcases hname : n.identifierName? with _ | x
  · rw [rename?_of_identifierName? ((identifierName?_withSlots slots).trans hname)]
    rcases hcollapse : r'.collapse? (n.withSlots slots) with _ | m
    · refine .node hname ?_ h
      cases n with
      | varDecl kind ds => exact absurd rfl (hn kind ds)
      | _ => rfl
    · obtain ⟨y, hdefault, hbinding, rfl⟩ := collapse?_eq_some_iff.1 hcollapse
      exact .collapsed h hdefault (isBinding_mono hr hbinding)
  · obtain rfl := identifierName?_eq_some.1 hname
    -- there is nothing below a name
    cases h
    exact .name ((r'.apply_cases x).imp_right fun hentry => hr.subset hentry)

/-- If only imports are rebuilt, visits leave what may become of nodes. -/
theorem ofNode_conserving (he : e.config.OnlyImports) (r : Renaming) (n : Node) :
    (ofNode e n).Obeys (Conserving e r) n := by
  refine ofNode_obeys ?_ ?_ ?_ n
  · intro n inList accepts s s₁ s' slots n' hn hfields hsettle
    obtain ⟨rfl, rfl⟩ :=
      Surroundings.settle_eq_rename? he.markup he.booleans he.indirectCalls hsettle
    exact hfields.conserving.mono fun taken hr => conserves_rename? hr hn
  · intro kind inList s
    exact .none .refl rfl (.declaration .nil (.inr rfl))
  · intro kind inList ds ss s s' hds hin
    refine (hin.conserving he).mono ?_
    rintro taken - ⟨ds', hds', hleft⟩
    -- there is a last node in the declaration
    have hany : ds.getLast?.any isDeclarator = ds.getLast?.all isDeclarator := by
      rw [getLast?_eq_some_getLast hds]
      rfl
    cases hleft with
    | stays h => exact .declaration hds' (h.imp_right hany.trans)
    | gone hnil h =>
      obtain rfl : ds' = [] := hnil
      exact .gone hds' (hany.trans h)

end Visit

/-! ## Runs -/

/-- What becomes of one more node comes last. -/
theorem EachItem.concat {R : Node → List Node → List Node → Prop} {os os' : List (Option Node)}
    {taken' : List Node} (h : EachItem R os taken os') (hn : R n taken' ns) :
    EachItem R (os ++ [some n]) (taken ++ taken') (os' ++ ns.map some) := by
  induction h with
  | nil =>
    have hone := EachItem.node hn .nil
    rwa [append_nil, append_nil] at hone
  | hole rest ih => exact .hole ih
  | node first rest ih =>
    rw [append_assoc, append_assoc]
    exact .node first ih

namespace Pass.Stage

variable {p q : Stage}

/-- The statements that are visited leave what may become of them, in order. -/
theorem Leads.conserving (he : e.config.OnlyImports) (h : Leads e p q) :
    p.state.Takes r q.state fun taken => ∃ visited ns, p.rest = visited ++ q.rest ∧
      q.done = p.done ++ ns ∧ EachItem (Conserves e r) (visited.map some) taken (ns.map some) := by
  induction h with
  | refl => exact .none .refl rfl ⟨[], [], rfl, (append_nil _).symm, .nil⟩
  | tail _ hstep ih =>
    obtain @⟨done, done', stmt, rest, s, s', h⟩ := hstep
    obtain ⟨ns, hns, rfl⟩ := step_of_not_exports he.exports h
    refine ih.append ((Visit.ofNode_conserving he r stmt).spliced hns) ?_
    rintro taken taken' ⟨visited, ms, hrest, hdone, hms⟩ hstmt
    refine ⟨visited ++ [stmt], ms ++ ns, ?_, ?_, ?_⟩
    · rw [hrest, append_assoc]
      rfl
    · rw [show done = _ from hdone, append_assoc]
    · rw [map_append, map_append]
      exact hms.concat hstmt

/-- What every visit keeps, a run keeps, as long as no export moves anything. -/
theorem Leads.keeping {P : PassState → Prop} (hexports : e.config.exports = false)
    (hP : ∀ n, (Visit.ofNode e n).Obeys (Visit.Keeping P) n) (h : Leads e p q) (hp : P p.state) :
    P q.state := by
  induction h with
  | refl => exact hp
  | tail _ hstep ih =>
    obtain @⟨done, done', stmt, rest, s, s', h⟩ := hstep
    obtain ⟨ns, hns, -⟩ := step_of_not_exports hexports h
    exact (hP stmt).spliced hns ih

end Pass.Stage

/-! ## Imports -/

/-- An item at the end of a list counts if it is not there yet. -/
theorem eraseDups_concat {α : Type} [BEq α] [LawfulBEq α] (l : List α) (a : α) :
    (l ++ [a]).eraseDups = if l.contains a then l.eraseDups else l.eraseDups ++ [a] := by
  rw [eraseDups_append]
  by_cases ha : l.contains a = true
  · simp_all [removeAll]
  · simp_all [removeAll, eraseDups_cons]

/-- There is one import for each module and kind that is taken up, in order. -/
def PassState.Shares (e : Surroundings) (s : PassState) : Prop :=
  s.imported.map Import.key = (s.accepted.filterMap e.loaded?).eraseDups

/-- Only the imports and what is taken up for them matter. -/
theorem PassState.Shares.of_eq (hs : s.Shares e) (himported : s'.imported = s.imported)
    (haccepted : s'.accepted = s.accepted) : s'.Shares e := by
  rw [Shares, himported, haccepted]
  exact hs

/-- A declarator that loads a module once more shares the import that there is,
    and any other adds one. -/
theorem Surroundings.TakesImport.shares (h : e.TakesImport inList alone s d s') (hs : s.Shares e) :
    s'.Shares e := by
  obtain ⟨key, hload, hcases⟩ := h.imported_cases
  have hknown : key ∈ s.imported.map Import.key ↔
      (s.accepted.filterMap e.loaded?).contains key = true := by
    rw [hs, mem_eraseDups, contains_iff_mem]
  rw [PassState.Shares, h.accepted_eq, filterMap_append, filterMap_cons_some hload,
    filterMap_nil, eraseDups_concat]
  obtain ⟨hmem, himported⟩ | ⟨hnew, i, rfl, himported⟩ := hcases
  · rw [if_pos (hknown.1 hmem), himported]
    exact hs
  · rw [if_neg (mt hknown.2 hnew), himported, map_append, hs]
    rfl

/-- A visit keeps one import for each module and kind. -/
theorem Visit.ofNode_shares (he : e.config.OnlyImports) (n : Node) :
    (ofNode e n).Obeys (Keeping (PassState.Shares e)) n := by
  refine ofNode_keeping ?_ ?_ (fun _ h => h.shares) ?_ n
  · exact fun h hs => Surroundings.settle_of_not_markup he.markup h ▸ hs
  · exact fun h hs => hs.of_eq h.keeps.2.1 h.accepted_eq
  · intro s x hx hs
    refine hs.of_eq rfl (s.accepted_noting ?_)
    rcases hx with hx | hx <;> rw [hx] <;> rfl

/-- All imports are added if and only if no two of them print alike. -/
theorem Pass.distinct_eq_self_iff {seen : List Text} {imports added : List Import}
    (h : distinct seen imports = .ok added) :
    added = imports ↔ (∀ i ∈ imports, ∀ text ∈ seen, i.declaration.print ≠ .ok text) ∧
      imports.Pairwise fun i j => j.declaration.print ≠ i.declaration.print := by
  induction imports generalizing seen added with
  | nil =>
    cases h
    simp
  | cons i imports ih =>
    obtain ⟨text, htext, h⟩ := bind_eq_ok.1 h
    split at h
    · rename_i hseen
      refine ⟨fun heq => ?_, fun hnone => ?_⟩
      · -- an import that prints like one before it is left out
        have hlength := (distinct_sublist h).length_le
        rw [heq, length_cons] at hlength
        omega
      · exact absurd htext (hnone.1 i mem_cons_self text (contains_iff_mem.1 hseen))
    · rename_i hseen
      obtain ⟨added', hadded', h⟩ := bind_eq_ok.1 h
      cases h
      have hunseen : ∀ text' ∈ seen, i.declaration.print ≠ .ok text' := fun text' htext' heq =>
        hseen (contains_iff_mem.2 (Except.ok.inj (htext.symm.trans heq) ▸ htext'))
      rw [cons_inj_right, ih hadded', pairwise_cons, forall_mem_cons, htext]
      constructor
      · rintro ⟨hrest, happart⟩
        refine ⟨⟨htext ▸ hunseen, fun j hj text' htext' =>
          hrest j hj text' (mem_cons_of_mem _ htext')⟩, ?_, happart⟩
        exact fun j hj => hrest j hj text mem_cons_self
      · rintro ⟨⟨-, hrest⟩, hfirst, happart⟩
        exact ⟨fun j hj => forall_mem_cons.2 ⟨hfirst j hj, hrest j hj⟩, happart⟩

/-- All imports are added if and only if none of a default export is written
    like one of a whole module. -/
theorem Outcome.Ran.added_eq_imported_iff {o : Outcome} {program : Node} (h : o.Ran program body) :
    o.added = o.state.imported ↔ ∀ i ∈ o.state.imported, ∀ j ∈ o.state.imported, ¬i.Mimics j := by
  have happart := h.sound.apart
  rw [Pass.distinct_eq_self_iff h.adds]
  constructor
  · rintro ⟨-, hdistinct⟩ i hi j hj hmimics
    have hne : ¬(i.source = j.source ∧ i.kind = j.kind) := by
      rw [hmimics.default, hmimics.namespaced]
      exact fun hsame => ImportKind.noConfusion hsame.2
    have hprint := (Import.print_eq_iff hne).2 (.inl hmimics)
    rcases eq_or_rel_of_pairwise hdistinct hi hj with rfl | hij | hji
    · exact hne ⟨rfl, rfl⟩
    · exact hij hprint.symm
    · exact hji hprint
  · intro hnone
    refine ⟨fun _ _ => forall_mem_nil _, happart.imp_of_mem fun hi hj hne hprint => ?_⟩
    rcases (Import.print_eq_iff hne).1 hprint.symm with hmimics | hmimics
    · exact hnone _ hi _ hj hmimics
    · exact hnone _ hj _ hi hmimics

/-! ## Helpers -/

/-- What a filter leaves comes from an item. -/
theorem exists_of_mem_filterMapM {α β : Type} {f : α → Except Fault (Option β)} {l : List α}
    {bs : List β} (h : l.filterMapM f = .ok bs) {b : β} (hb : b ∈ bs) :
    ∃ a ∈ l, f a = .ok (some b) := by
  induction l generalizing bs with
  | nil =>
    cases h
    exact absurd hb not_mem_nil
  | cons a l ih =>
    rw [filterMapM_cons] at h
    obtain ⟨o, ho, h⟩ := bind_eq_ok.1 h
    rcases o with _ | b'
    · obtain ⟨a', ha', hb⟩ := ih h hb
      exact ⟨a', mem_cons_of_mem _ ha', hb⟩
    · obtain ⟨bs', hbs', h⟩ := bind_eq_ok.1 h
      cases h
      rcases mem_cons.1 hb with rfl | hb
      · exact ⟨a, mem_cons_self, ho⟩
      · obtain ⟨a', ha', hb⟩ := ih hbs' hb
        exact ⟨a', mem_cons_of_mem _ ha', hb⟩

/-- The first helper of a kind is one of the functions of the program. -/
theorem exists_interopHelper {helpers : Table ImportKind} (h : interopHelpers body = .ok helpers)
    {kind : ImportKind} (hx : helperOf? helpers kind = some x) :
    ∃ m ∈ body, m.interopHelper? = .ok (some (x, kind)) := by
  obtain ⟨found, hfound, h⟩ := bind_eq_ok.1 h
  cases h
  obtain ⟨entry, hentry, rfl⟩ := Option.map_eq_some_iff.1 hx
  obtain rfl : entry.2 = kind :=
    eq_of_beq (find?_some (p := fun e : Text × ImportKind => e.2 == kind) hentry)
  have hmem : ∀ e ∈ found.foldl (fun (t : Table ImportKind) e =>
      t.insert e.1 e.2) [], e ∈ found := by
    refine foldlRecOn (motive := fun t : Table ImportKind => ∀ e ∈ t, e ∈ found) _ _
      (forall_mem_nil _) ?_
    intro t ht a ha e he
    exact (Table.mem_insert he).elim (ht e) fun heq => heq ▸ ha
  exact exists_of_mem_filterMapM hfound (hmem entry (mem_of_find?_eq_some hentry))

/-- Where no runtime is known, only helpers may be idle. -/
theorem Pass.mem_idleHelpers (hruntime : e.customRuntime = none) {t : Tally} :
    x ∈ idleHelpers e t ↔ x ≠ [] ∧ 0 < t.imports ∧ ∃ kind, helperOf? e.helpers kind = some x := by
  have hkinds : (∃ kind, helperOf? e.helpers kind = some x) ↔
      helperOf? e.helpers .default = some x ∨ helperOf? e.helpers .namespaced = some x := by
    constructor
    · rintro ⟨_ | _, hx⟩
      · exact .inl hx
      · exact .inr hx
    · rintro (hx | hx)
      · exact ⟨_, hx⟩
      · exact ⟨_, hx⟩
  have hnamed : (!x.isEmpty) = true ↔ x ≠ [] := by simp
  rw [idleHelpers, hruntime, mem_filter, hnamed, hkinds, Option.toList_none, ite_self,
    append_nil, and_comm]
  refine and_congr_right fun _ => ?_
  by_cases himports : 0 < t.imports
  · rw [if_pos himports, mem_append, Option.mem_toList, Option.mem_toList]
    exact (and_iff_right himports).symm
  · rw [if_neg himports]
    exact ⟨fun h => absurd h not_mem_nil, fun h => absurd h.1 himports⟩

/-- A statement defines one of some names if it is a function of that name. -/
theorem Node.definesOneOf_eq_true_iff {names : List Text} :
    n.definesOneOf names = .ok true ↔ ∃ x ∈ names, n.functionName? = some x := by
  unfold definesOneOf functionName?
  split
  · rename_i id _ _ _ _
    rw [definedName]
    constructor
    · intro h
      obtain ⟨x, hx, h⟩ := bind_eq_ok.1 h
      split at hx
      · rename_i hname
        cases hx
        exact ⟨x, contains_iff_mem.1 (Except.ok.inj h), hname⟩
      · cases hx
    · rintro ⟨x, hx, hname⟩
      rw [hname]
      exact congrArg Except.ok (contains_iff_mem.2 hx)
  · constructor
    · intro h
      cases h
    · rintro ⟨x, -, h⟩
      cases h

namespace Node

/-- A function declaration has an identifier for its name, if it has one. -/
def isPlainlyNamed : Node → Bool
  | functionDecl (some id) _ _ _ _ => id.isIdentifier
  | _ => true

/-- The name of a function declaration is a name in it. -/
theorem mem_names_of_functionName? {n : Node} {x : Text} (hn : n.isPlainlyNamed = true)
    (hx : n.functionName? = some x) : x ∈ n.names := by
  unfold functionName? at hx
  split at hx
  · rename_i id _ _ _ _
    cases id with
    | identifier y =>
      cases hx
      exact mem_names_functionDecl
    | _ => cases hn
  · cases hx

/-- A helper is a function declaration, by its name. -/
theorem eq_functionDecl_of_interopHelper? {n : Node} {x : Text} {kind : ImportKind}
    (h : n.interopHelper? = .ok (some (x, kind))) (hn : n.isPlainlyNamed = true) :
    ∃ params body isAsync isGenerator,
      n = functionDecl (some (identifier x)) params body isAsync isGenerator := by
  unfold interopHelper? at h
  split at h
  · rename_i id params body isAsync isGenerator
    obtain ⟨statements, -, h⟩ := bind_eq_ok.1 h
    obtain ⟨name, hname, h⟩ := bind_eq_ok.1 h
    obtain rfl : name = x := by
      split_ifs at h <;> cases h <;> rfl
    cases id with
    | identifier y =>
      cases hname
      exact ⟨params, body, isAsync, isGenerator, rfl⟩
    | _ => cases hn
  · cases h

end Node

/-- A function declaration stays one; its name may get that of the table. -/
theorem Conserves.functionDecl {params : List Node} {body : Node} {isAsync isGenerator : Bool}
    (h : Conserves e r (functionDecl (some (identifier x)) params body isAsync
      isGenerator) taken ns) :
    ∃ y params' body', (y = x ∨ (x, y) ∈ r.entries) ∧
      ns = [functionDecl (some (identifier y)) params' body' isAsync isGenerator] := by
  cases h with
  | node hname hdeclaration h =>
    obtain _ | ⟨hf, first, rest⟩ | ⟨hf, rest⟩ := h
    · cases first with
      | single h =>
        cases h with
        | name hy => exact ⟨_, _, _, hy, rfl⟩
        | node hname => cases hname
        | collapsed h hdefault => cases hdefault.2
    · cases hf
  | collapsed h hdefault => cases hdefault.2

/-- A function keeps an identifier for its name. -/
theorem Conserves.isPlainlyNamed (h : Conserves e r n taken ns) (hn : n.isPlainlyNamed = true) :
    ∀ n' ∈ ns, n'.isPlainlyNamed = true := by
  cases h with
  | gone => exact forall_mem_nil _
  | node hname hdeclaration h =>
    refine forall_mem_singleton.2 ?_
    cases n with
    | functionDecl id params body isAsync isGenerator =>
      obtain _ | ⟨hf, first, rest⟩ | ⟨hf, rest⟩ := h
      · obtain _ | @⟨id, id', taken, h⟩ | _ := first
        · rfl
        · cases h with
          | node hname =>
            cases id with
            | identifier x => cases hname
            | _ => cases hn
          | declaration => cases hn
          | _ => rfl
      · cases hf
    | _ => rfl
  | _ => exact forall_mem_singleton.2 rfl

/-- It does so as well when all bindings are renamed. -/
theorem Renaming.isPlainlyNamed_inStatement (hn : n.isPlainlyNamed = true) :
    (r.inStatement n).isPlainlyNamed = true := by
  rw [inStatement_eq, rewrite_eq]
  cases n with
  | functionDecl id params body isAsync isGenerator =>
    rcases id with _ | id
    · rfl
    · cases id with
      | identifier x => rfl
      | _ => cases hn
  | member receiver property computed o =>
    rcases hcollapse : r.rename? _ with _ | m
    · rfl
    · obtain ⟨x, -, -, rfl⟩ := collapse?_eq_some_iff.1 hcollapse
      rfl
  | _ => rfl

/-- A function declaration is renamed at its name, and in the rest of it. -/
theorem Renaming.inStatement_functionDecl (r : Renaming) (x : Text) (params : List Node)
    (body : Node) (isAsync isGenerator : Bool) :
    ∃ params' body', r.inStatement
      (.functionDecl (some (.identifier x)) params body isAsync isGenerator) =
      .functionDecl (some (.identifier (r.apply x))) params' body' isAsync isGenerator := by
  rw [inStatement_eq, rewrite_eq]
  exact ⟨_, _, rfl⟩

section

variable {R : Node → List Node → List Node → Prop} {os os' : List (Option Node)} {taken : List Node}

/-- What is left comes from a node of the list. -/
theorem EachItem.exists_origin (h : EachItem R os taken os') {n' : Node} (hn' : some n' ∈ os') :
    ∃ n taken ns, some n ∈ os ∧ R n taken ns ∧ n' ∈ ns := by
  induction h with
  | nil => exact absurd hn' not_mem_nil
  | hole rest ih =>
    obtain ⟨n, taken, ns, hn, hR, hmem⟩ :=
      ih ((mem_cons.1 hn').resolve_left (Option.some_ne_none _))
    exact ⟨n, taken, ns, mem_cons_of_mem _ hn, hR, hmem⟩
  | node first rest ih =>
    rcases mem_append.1 hn' with hn' | hn'
    · obtain ⟨m, hm, heq⟩ := mem_map.1 hn'
      cases heq
      exact ⟨_, _, _, mem_cons_self, first, hm⟩
    · obtain ⟨n, taken, ns, hn, hR, hmem⟩ := ih hn'
      exact ⟨n, taken, ns, mem_cons_of_mem _ hn, hR, hmem⟩

/-- What becomes of a node is left in the list. -/
theorem EachItem.exists_image (h : EachItem R os taken os') {n : Node} (hn : some n ∈ os) :
    ∃ taken ns, R n taken ns ∧ ∀ n' ∈ ns, some n' ∈ os' := by
  induction h with
  | nil => exact absurd hn not_mem_nil
  | hole rest ih =>
    obtain ⟨taken, ns, hR, hmem⟩ := ih ((mem_cons.1 hn).resolve_left (Option.some_ne_none _))
    exact ⟨taken, ns, hR, fun n' hn' => mem_cons_of_mem _ (hmem n' hn')⟩
  | node first rest ih =>
    rcases mem_cons.1 hn with heq | hn
    · cases heq
      exact ⟨_, _, first, fun n' hn' => mem_append_left _ (mem_map_of_mem hn')⟩
    · obtain ⟨taken, ns, hR, hmem⟩ := ih hn
      exact ⟨taken, ns, hR, fun n' hn' => mem_append_right _ (hmem n' hn')⟩

end

/-- If nothing but imports is rebuilt, there is no dialect to find. -/
theorem survey_of_onlyImports {config : Config} {program : Node} (hconfig : config.OnlyImports)
    (hbody : program.statements = .ok body) (h : survey config program = .ok e) :
    ∃ helpers, interopHelpers body = .ok helpers ∧ e = ⟨config, helpers, none⟩ := by
  obtain ⟨body', hbody', h⟩ := bind_eq_ok.1 h
  obtain rfl := Except.ok.inj (hbody.symm.trans hbody')
  obtain ⟨helpers, hhelpers, h⟩ := bind_eq_ok.1 h
  have hexports : (config.exports && program.isProgram) = config.exports := by
    rw [hconfig.exports]
    rfl
  rw [if_neg (hconfig.markup ▸ Bool.false_ne_true), hexports] at h
  cases h
  exact ⟨helpers, hhelpers, rfl⟩

namespace Outcome

/-- The statements that the visits leave, with all bindings renamed. -/
def swept (o : Outcome) : List Node :=
  o.walked.map o.state.renames.inStatement

/-- A statement goes: something is imported, and it is the declaration of the
    first helper of a kind, whose name stands nowhere else. -/
structure Drops (o : Outcome) (n : Node) (x : Text) : Prop where
  name : n.functionName? = some x
  ne_nil : x ≠ []
  helper : ∃ kind, helperOf? o.surroundings.helpers kind = some x
  imports : o.state.accepted ≠ []
  once : (o.swept.flatMap names).count x = 1

/-- What a pass that only rebuilds imports leaves of some statements. -/
structure Conserved (o : Outcome) (config : Config) (body : List Node) : Prop where
  /-- The pass knows its settings, and the helpers of the program. -/
  known : ∃ helpers, interopHelpers body = .ok helpers ∧ o.surroundings = ⟨config, helpers, none⟩
  /-- Of every statement stays what may become of it, in order, and the
      declarators that are taken away become imports. -/
  walked : EachItem (Conserves o.surroundings o.state.renames)
    (body.map some) o.state.accepted (o.walked.map some)
  /-- Of these, some function declarations go. -/
  kept : ∃ p : Node → Bool, o.kept = o.swept.filter p ∧
    ∀ n ∈ o.swept, p n = false ↔ ∃ x, o.Drops n x
  /-- The imports stand after the directives. -/
  program : ∃ directives rest, o.kept = directives ++ rest ∧
    (∀ n ∈ directives, n.isDirective = true) ∧ (∀ n ∈ rest.head?, n.isDirective = false) ∧
    o.program.statements = .ok (directives ++ o.added.map Import.declaration ++ rest)
  /-- There is one import for each module and kind, in the order in which they
      come first. -/
  imported : o.state.imported.map Import.key =
    (o.state.accepted.filterMap o.surroundings.loaded?).eraseDups
  /-- All of them are added, unless two of them are written alike. -/
  added : o.added = o.state.imported ↔ ∀ i ∈ o.state.imported, ∀ j ∈ o.state.imported, ¬i.Mimics j
  /-- What goes is a helper of the program, unless a variable gets its name. -/
  dropped : (∀ n ∈ body, n.isPlainlyNamed = true) → ∀ n ∈ o.swept, ∀ x, o.Drops n x →
    (∀ entry ∈ o.state.renames.entries, entry.2 ≠ x) →
      ∃ m ∈ body, ∃ kind, m.interopHelper? = .ok (some (x, kind)) ∧
        ∃ taken m', Conserves o.surroundings o.state.renames m taken [m'] ∧
          n = o.state.renames.inStatement m'

namespace Ran

variable {o : Outcome} {program : Node} {body : List Node}

/-- Imports are counted if and only if a declarator becomes one. -/
theorem accepted_ne_nil_iff (h : o.Ran program body) :
    o.state.accepted ≠ [] ↔ 0 < o.state.tally.imports := by
  rw [h.recorded.imports, countP_eq_length_filter, PassState.accepted, ne_eq,
    map_eq_nil_iff, length_pos_iff]

/-- Without exports nothing is left over: statements are only renamed. -/
theorem renamed_eq (he : o.surroundings.config.exports = false) :
    Pass.renamed o.surroundings o.state o.walked = o.swept := by
  rw [Pass.renamed, he, sweep_program]
  rfl

/-- The statements that stay, and the function declarations that go. -/
theorem kept_eq (h : o.Ran program body) (he : o.surroundings.config.exports = false)
    (hruntime : o.surroundings.customRuntime = none) :
    ∃ p : Node → Bool, o.kept = o.swept.filter p ∧ ∀ n ∈ o.swept,
      p n = false ↔ ∃ x, o.Drops n x := by
  have hdrops := h.drops
  rw [renamed_eq he] at hdrops
  obtain ⟨p, hp, hiff⟩ := Pass.dropHelpers_eq_filter hdrops
  refine ⟨p, hp, fun n hn => ?_⟩
  rw [hiff n hn, Node.definesOneOf_eq_true_iff]
  refine exists_congr fun x => ?_
  rw [Pass.unusedHelpers, mem_filter, Pass.mem_idleHelpers hruntime, beq_iff_eq,
    Refs.ofNodes_eq, ← h.accepted_ne_nil_iff]
  constructor
  · rintro ⟨⟨⟨hne, himports, hhelper⟩, honce⟩, hname⟩
    exact ⟨hname, hne, hhelper, himports, honce⟩
  · rintro ⟨hname, hne, hhelper, himports, honce⟩
    exact ⟨⟨⟨hne, himports, hhelper⟩, honce⟩, hname⟩

/-- A name that still stands somewhere, and is not given, is not renamed. -/
theorem not_mem_renames {x : Text} (hx : x ∈ o.swept.flatMap names)
    (hgiven : ∀ entry ∈ o.state.renames.entries, entry.2 ≠ x) :
    o.state.renames.apply x = x ∧ ∀ y, (x, y) ∉ o.state.renames.entries := by
  have hself : o.state.renames.apply x = x := by
    obtain ⟨n, hn, hx⟩ := mem_flatMap.1 hx
    obtain ⟨w, -, rfl⟩ := mem_map.1 hn
    rw [inStatement_eq, names_rewrite_rename?] at hx
    obtain ⟨z, -, rfl⟩ := mem_map.1 hx
    rcases o.state.renames.apply_cases z with hsame | hentry
    · rw [hsame, hsame]
    · exact absurd rfl (hgiven _ hentry)
  refine ⟨hself, fun y hy => ?_⟩
  rw [apply] at hself
  rcases hget : o.state.renames.get? x with _ | z
  · exact absurd rfl (bne_iff_ne.1 (lookup_eq_none_iff.1 hget _ hy))
  · rw [hget, Option.getD_some] at hself
    exact hgiven _ (Table.mem_of_get? hget) hself

/-- If no variable gets the name of a function that goes, the function is a
    helper of the program. -/
theorem exists_helper (hwalked : EachItem (Conserves o.surroundings o.state.renames)
    (body.map some) o.state.accepted (o.walked.map some))
    (hhelpers : interopHelpers body = .ok o.surroundings.helpers)
    (hbody : ∀ n ∈ body, n.isPlainlyNamed = true) {n : Node} (hn : n ∈ o.swept) {x : Text}
    (hdrops : o.Drops n x) (hgiven : ∀ entry ∈ o.state.renames.entries, entry.2 ≠ x) :
    ∃ m ∈ body, ∃ kind, m.interopHelper? = .ok (some (x, kind)) ∧
      ∃ taken m', Conserves o.surroundings o.state.renames m taken [m'] ∧
        n = o.state.renames.inStatement m' := by
  have hmem {m : Node} {l : List Node} (hm : some m ∈ l.map some) : m ∈ l := by
    obtain ⟨m', hm', heq⟩ := mem_map.1 hm
    exact Option.some.inj heq ▸ hm'
  obtain ⟨kind, hkind⟩ := hdrops.helper
  obtain ⟨m, hm, hhelper⟩ := exists_interopHelper hhelpers hkind
  obtain ⟨params, block, isAsync, isGenerator, rfl⟩ :=
    eq_functionDecl_of_interopHelper? hhelper (hbody m hm)
  obtain ⟨taken, ns, hconserves, hns⟩ := hwalked.exists_image (mem_map_of_mem hm)
  obtain ⟨y, params', block', hy, rfl⟩ := hconserves.functionDecl
  -- the helper keeps its name, so the name that is met once is met in it
  obtain ⟨hself, hold⟩ :=
    not_mem_renames (count_pos_iff.1 (by rw [hdrops.once]; exact Nat.one_pos)) hgiven
  obtain rfl : y = x := hy.resolve_right (hold y)
  obtain ⟨params'', block'', himage⟩ :=
    o.state.renames.inStatement_functionDecl y params' block' isAsync isGenerator
  rw [hself] at himage
  have hswept : o.state.renames.inStatement _ ∈ o.swept :=
    mem_map_of_mem (hmem (hns _ (mem_singleton_self _)))
  have hnamed : n.isPlainlyNamed = true := by
    obtain ⟨w, hw, rfl⟩ := mem_map.1 hn
    obtain ⟨n₀, taken₀, ns₀, hn₀, hconserves₀, hw⟩ := hwalked.exists_origin (mem_map_of_mem hw)
    exact isPlainlyNamed_inStatement
      (hconserves₀.isPlainlyNamed (hbody n₀ (hmem hn₀)) w hw)
  refine ⟨_, hm, kind, hhelper, taken, _, hconserves, ?_⟩
  by_contra hne
  refine Refs.not_mem_of_ofNodes_eq_one ((Refs.ofNodes_eq _ _).trans hdrops.once) hswept ?_ hn hne
    (mem_names_of_functionName? hnamed hdrops.name)
  rw [himage]
  exact mem_names_functionDecl

/-- The imports stand between the directives and the other statements. -/
theorem statements_program (h : o.Ran program body) :
    ∃ directives rest, o.kept = directives ++ rest ∧ (∀ n ∈ directives, n.isDirective = true) ∧
      (∀ n ∈ rest.head?, n.isDirective = false) ∧
        o.program.statements = .ok (directives ++ o.added.map Import.declaration ++ rest) := by
  refine ⟨o.kept.takeWhile isDirective, o.kept.dropWhile isDirective,
    takeWhile_append_dropWhile.symm, ?_, ?_, ?_⟩
  · exact all_eq_true.1 all_takeWhile
  · intro n hn
    have hhead := head?_dropWhile_not isDirective o.kept
    rw [hn] at hhead
    exact hhead
  · rw [h.program_eq, statements_withStatements h.statements]
    rfl

/-- A pass that only rebuilds imports conserves a program, statement by
    statement. -/
theorem conserved {config : Config} (h : o.Ran program body) (hconfig : config.OnlyImports)
    (hsurvey : survey config program = .ok o.surroundings) : o.Conserved config body := by
  obtain ⟨helpers, hhelpers, hknown⟩ := survey_of_onlyImports hconfig h.statements hsurvey
  have he : o.surroundings.config.OnlyImports := by
    rw [hknown]
    exact hconfig
  have hruntime : o.surroundings.customRuntime = none := by rw [hknown]
  have hstart : Pass.start o.surroundings program body = { names := Names.ofProgram program } := by
    rw [Pass.start, he.displayNames]
    rfl
  have hleads := h.leads
  rw [hstart] at hleads
  obtain ⟨taken, htaken, visited, ns, hvisited, hns, hwalked⟩ :=
    (Pass.Stage.Leads.conserving (r := o.state.renames) he hleads).taken (prefix_refl _)
  obtain rfl : body = visited := hvisited.trans (append_nil _)
  obtain rfl : o.walked = ns := hns
  obtain rfl : o.state.accepted = taken := htaken
  exact
    { known := ⟨helpers, hhelpers, hknown⟩
      walked := hwalked
      kept := h.kept_eq he.exports hruntime
      program := h.statements_program
      imported := Pass.Stage.Leads.keeping he.exports (Visit.ofNode_shares he) hleads rfl
      added := h.added_eq_imported_iff
      dropped := fun hbody n hn x => exists_helper hwalked (by rw [hhelpers, hknown]) hbody hn }

end Ran

end Outcome

/-- What a pass leaves that only rebuilds imports: the statements of the program
    in their order, with other names and without the declarators that become
    imports, but for some function declarations; and the imports, between the
    directives and the other statements. Each of the two parts has an exception:
    a function may go that is no helper, if a variable gets the name of the
    helper, and an import is lost if it is written like another one. -/
theorem imports_conserve {config : Config} {program : Node} {o : Outcome}
    (hconfig : config.OnlyImports) (h : reconstruct config program = .ok o) :
    ∃ body, program.statements = .ok body ∧ o.Conserved config body := by
  obtain ⟨body, hran⟩ := reconstruct_ran h
  exact ⟨body, hran.statements, hran.conserved hconfig (reconstruct_survey h)⟩

/-- The settings of a pass that only rebuilds imports. -/
def importsAlone : Config :=
  { markup := false, classes := false, exports := false, booleans := false,
    indirectCalls := false, displayNames := false }

theorem onlyImports_importsAlone : importsAlone.OnlyImports :=
  ⟨rfl, rfl, rfl, rfl, rfl, rfl, rfl⟩

/-- `function x(o) { return o ? o : null; }` -/
def choosing (x : Text) : Node :=
  .functionDecl (some (.identifier x)) [.identifier "o"]
    (.block [.returnStmt (some (.conditional (.identifier "o") (.identifier "o")
      (.literal .null none)))]) false false

/-- `helper(require("source"))` -/
def loadedBy (helper source : Text) : Node :=
  .call (.identifier helper) [.call (.identifier "require")
    [.literal (.string source) none] false] false

/-- `"use strict"; function pick(o) { return o ? o : null; } var a =
    pick(require("m")), b; var c = require("m"); function f() { var d =
    pick(require("m")); }` -/
def sharedLoads : Node :=
  .program [.exprStmt (.literal (.string "use strict") none), choosing "pick",
    .varDecl .var [.declarator (.identifier "a") (some (loadedBy "pick" "m")),
      .declarator (.identifier "b") none],
    loading "c" "m", namedFunction "f" [declaring "d" (loadedBy "pick" "m")]]

/-- Three loads of one module share two imports, and the helper goes. -/
theorem imports_conserve_sharedLoads :
    ∃ o body, reconstruct importsAlone sharedLoads = .ok o ∧ o.Conserved importsAlone body ∧
      o.state.accepted.length = 3 ∧
      o.added.map Import.key = [(Text.ofString "m", .default), (Text.ofString "m", .namespaced)] ∧
      ∃ n ∈ o.swept, o.Drops n "pick" ∧
        ∃ m ∈ body, ∃ kind, m.interopHelper? = .ok (some ("pick", kind)) := by
  let P (o : Outcome) : Prop := o.state.accepted.length = 3 ∧
    o.state.imported.map Import.key =
      [(Text.ofString "m", .default), (Text.ofString "m", .namespaced)] ∧
    (∀ i ∈ o.state.imported, ∀ j ∈ o.state.imported, i.name ≠ "* as " ++ j.name) ∧
    (∀ entry ∈ o.state.renames.entries, entry.2 ≠ "pick") ∧
    helperOf? o.surroundings.helpers .default = some (Text.ofString "pick") ∧
    (o.swept.flatMap Node.names).count (Text.ofString "pick") = 1 ∧
    ∃ n ∈ o.swept, n.functionName? = some (Text.ofString "pick")
  obtain ⟨o, ho, haccepted, hkeys, hnames, hgiven, hhelper, honce, n, hn, hname⟩ :
      ∃ o, reconstruct importsAlone sharedLoads = .ok o ∧ P o := exists_outcome (by decide +kernel)
  obtain ⟨body, hbody, hconserved⟩ := imports_conserve onlyImports_importsAlone ho
  have hadded := hconserved.added.2 fun i hi j hj hmimics => hnames i hi j hj hmimics.name
  have hdrops : o.Drops n "pick" :=
    ⟨hname, by decide, ⟨_, hhelper⟩, ne_nil_of_length_eq_add_one haccepted, honce⟩
  have hplain : ∀ n ∈ body, n.isPlainlyNamed = true := by
    cases hbody
    decide
  obtain ⟨m, hm, kind, hinterop, -⟩ := hconserved.dropped hplain n hn _ hdrops hgiven
  exact ⟨o, body, ho, hconserved, haccepted, hadded ▸ hkeys, n, hn, hdrops, m, hm, kind, hinterop⟩

/-- `function superagent(o) { return o ? o : null; } function g() {} function
    k() { var superagent = require("x"); } function l() { var _y = require("y");
    } function m() { var superagent = require("y"); } function n() { var g =
    require("x"); }` -/
def helperRenamed : Node :=
  .program [choosing "superagent", namedFunction "g" [],
    namedFunction "k" [loading "superagent" "x"],
    namedFunction "l" [loading "_y" "y"], namedFunction "m" [loading "superagent" "y"],
      namedFunction "n" [loading "g" "x"]]

/-- A helper gets another name, a function that is no helper gets its name, and
    goes in its place. -/
theorem imports_not_conserved :
    (namedFunction "g" []).interopHelper? = .ok none ∧
      ∃ o, reconstruct importsAlone helperRenamed = .ok o ∧
        o.state.renames.apply "superagent" = "Y" ∧
        o.state.renames.apply "g" = "superagent" ∧
        o.swept.filterMap Node.functionName? =
          ["Y", "superagent", "k", "l", "m", "n"].map Text.ofString ∧
        o.kept.filterMap Node.functionName? = ["Y", "k", "l", "m", "n"].map Text.ofString :=
  ⟨rfl, exists_outcome (by decide +kernel)⟩

end Resugar
