import Mathlib.Data.Set.Operations
import Resugar.Proofs.Pass.Deletion
import Resugar.Proofs.Pass.Exports
import Resugar.Proofs.Pass.Order
import Resugar.Proofs.Pass.Renames
import Resugar.Proofs.Pass.Sightings

/-!
# Display names

`a.displayName = "Pretty"` says how the function `a` is to be called. If nothing
else is rebuilt, a pass leaves the program with other names (`Node.mapNames`),
and different names stay different. There is one exception. New names are kept
in the table that is made for imports, and where `a` is a name in that table,
`a.default` is read as `a`. So a function with a display name loses its property
`default`.
-/

namespace Resugar

open List Renaming

namespace Node

/-! ## Trees with other names -/

/-- A tree with nodes replaced from the bottom up, each for itself. -/
def rewrite (f : Node → Option Node) (n : Node) : Node :=
  n.replaceAll (fun _ => f) false

/-- A tree with other names for its variables; all else is the same. -/
def mapNames (f : Text → Text) (n : Node) : Node :=
  n.rewrite fun m => m.identifierName?.map fun x => identifier (f x)

variable {n c : Node} {f : Text → Text} {g h : Node → Node}

/-- Nodes are replaced below the root first, and then at it. -/
theorem rewrite_eq (f : Node → Option Node) (n : Node) :
    n.rewrite f = (f (n.withSlots (n.slotsMap (rewrite f)))).getD
      (n.withSlots (n.slotsMap (rewrite f))) := by
  have hslots : (n.fields.map fun field => if field.walked then
      field.slot.map (·.replaceAll (fun _ => f) (false || n.isFunction))
        else field.slot) = n.slotsMap (rewrite f) := by
    refine map_congr_left fun field _ => ?_
    split
    · exact Slot.map_congr fun c _ => c.replaceAll_nested f _
    · rfl
  rw [rewrite, replaceAll_eq, hslots]

theorem slotsMap_id (hg : ∀ c ∈ n.children, g c = c) : n.withSlots (n.slotsMap g) = n := by
  have hslots : n.slotsMap g = n.fields.map Field.slot := by
    rw [slotsMap_congr (h := id) hg]
    refine map_congr_left fun field _ => ?_
    split
    · rcases field.slot with (_ | _) | items
      · rfl
      · rfl
      · exact congrArg Slot.list (by simp)
    · rfl
  rw [hslots, withSlots_slots]

theorem identifierName?_withSlots (slots : List (Slot Node)) :
    (n.withSlots slots).identifierName? = n.identifierName? :=
  identifierName?_setSlots _ n

@[simp]
theorem mapNames_identifier (f : Text → Text) (x : Text) :
    (identifier x).mapNames f = identifier (f x) :=
  rfl

/-- Only a name is replaced. -/
theorem mapNames_eq (hn : n.identifierName? = none) :
    n.mapNames f = n.withSlots (n.slotsMap (mapNames f)) := by
  have hroot := (identifierName?_withSlots (n := n) (n.slotsMap (mapNames f))).trans hn
  rw [mapNames, rewrite_eq]
  change ((identifierName? (n.withSlots (n.slotsMap (mapNames f)))).map _).getD _ = _
  rw [hroot]
  rfl

/-- Only names become names. -/
theorem eq_identifier_of_mapNames {y : Text} (hn : n.mapNames f = identifier y) :
    ∃ x, n = identifier x ∧ f x = y := by
  rcases hname : n.identifierName? with _ | x
  · rw [mapNames_eq hname] at hn
    have hroot := (identifierName?_withSlots (n := n) (n.slotsMap (mapNames f))).trans hname
    rw [hn] at hroot
    cases hroot
  · obtain rfl := identifierName?_eq_some.1 hname
    exact ⟨x, rfl, identifier.inj hn⟩

/-- Replacements that change single names by a map change all by it. -/
theorem names_rewrite {F : Node → Option Node}
    (hF : ∀ n, ((F n).getD n).names = n.identifierName?.toList.map f ++
      n.children.flatMap names) (n : Node) : (n.rewrite F).names = n.names.map f := by
  induction n using induct with
  | h n ih =>
    rw [rewrite_eq, hF, identifierName?_withSlots, slotsMap, children_withSlots_map, names_eq n,
      map_append, flatMap_map, map_flatMap]
    exact congrArg _ (flatMap_congr fun c hc => ih c (mem_parts_of_mem_children hc))

theorem names_mapNames (f : Text → Text) (n : Node) : (n.mapNames f).names = n.names.map f := by
  refine names_rewrite (fun n => ?_) n
  rcases hname : n.identifierName? with _ | x
  · change n.names = n.children.flatMap names
    rw [names_eq, hname]
    rfl
  · obtain rfl := identifierName?_eq_some.1 hname
    rfl

theorem mapNames_eq_self (hf : ∀ x ∈ n.names, f x = x) : n.mapNames f = n := by
  induction n using induct with
  | h n ih =>
    rcases hname : n.identifierName? with _ | x
    · rw [mapNames_eq hname]
      refine slotsMap_id fun c hc => ih c (mem_parts_of_mem_children hc) fun x hx => hf x ?_
      rw [names_eq]
      exact mem_append_right _ (mem_flatMap.2 ⟨c, hc, hx⟩)
    · obtain rfl := identifierName?_eq_some.1 hname
      rw [mapNames_identifier, hf x (mem_singleton_self x)]

theorem names_subset_of_mem_walk (hc : c ∈ n.walk) : c.names ⊆ n.names := by
  induction n using induct with
  | h n ih =>
    rcases mem_walk_iff.1 hc with rfl | ⟨m, hm, hc⟩
    · exact List.Subset.refl _
    · exact List.Subset.trans (ih m (mem_parts_of_mem_children hm) hc)
        (names_subset_of_mem_children hm)

/-- The nodes of a tree stand in the renamed tree, with their new names. -/
theorem mem_walk_mapNames (hc : c ∈ n.walk) : c.mapNames f ∈ (n.mapNames f).walk := by
  induction n using induct with
  | h n ih =>
    rcases mem_walk_iff.1 hc with rfl | ⟨m, hm, hc⟩
    · exact mem_walk_self _
    · have hname : n.identifierName? = none := by
        rcases hx : n.identifierName? with _ | x
        · rfl
        · obtain rfl := identifierName?_eq_some.1 hx
          exact absurd hm not_mem_nil
      refine mem_walk_iff.2 (.inr ⟨m.mapNames f, ?_, ih m (mem_parts_of_mem_children hm) hc⟩)
      rw [mapNames_eq hname, slotsMap, children_withSlots_map]
      exact mem_map_of_mem hm

/-! ## Members named `default` -/

/-- `a.default` or `a["default"]`, for a variable `a`. -/
def IsDefaultOf (n : Node) (x : Text) : Prop :=
  n.isMemberNamed "default" = true ∧ n.receiver? = some (identifier x)

/-- `a.default` is a member of the name, whichever way the key is written. -/
theorem isDefaultOf_iff {x : Text} : n.IsDefaultOf x ↔ ∃ property computed o,
    property.propertyName? computed = some (Text.ofString "default") ∧
      n = member (identifier x) property computed o := by
  constructor
  · rintro ⟨hname, hreceiver⟩
    obtain ⟨property, computed, o, rfl⟩ := receiver?_eq_some.1 hreceiver
    exact ⟨property, computed, o, beq_iff_eq.1 hname, rfl⟩
  · rintro ⟨property, computed, o, hname, rfl⟩
    exact ⟨beq_iff_eq.2 hname, rfl⟩

theorem names_of_isDefaultOf {x : Text} (hn : n.IsDefaultOf x) : n.names = [x] := by
  obtain ⟨property, computed, o, hname, rfl⟩ := isDefaultOf_iff.1 hn
  unfold propertyName? at hname
  split at hname
  · rfl
  · rfl
  · cases hname

/-- A property that a name is written for is none of the names of a tree. -/
theorem propertyName?_mapNames {property : Node} {computed : Bool} :
    (if computed then property.mapNames f else property).propertyName? computed =
      property.propertyName? computed := by
  cases computed with
  | false => rfl
  | true =>
    rw [if_pos rfl]
    rcases hname : property.identifierName? with _ | x
    · rw [mapNames_eq hname]
      cases property <;> rfl
    · obtain rfl := identifierName?_eq_some.1 hname
      rfl

/-- In a member the receiver is renamed, and the key if it is computed. -/
theorem mapNames_member (receiver property : Node) (computed o : Bool) :
    (member receiver property computed o).mapNames f =
      member (receiver.mapNames f) (if computed then property.mapNames f else property)
        computed o := by
  rw [mapNames_eq rfl]
  cases computed <;> rfl

/-- A renaming makes `y.default` of the `x.default` that it takes to `y`. -/
theorem isDefaultOf_mapNames {y : Text} :
    (n.mapNames f).IsDefaultOf y ↔ ∃ x, n.IsDefaultOf x ∧ f x = y := by
  constructor
  · intro hn
    obtain ⟨property', computed, o, hname, heq⟩ := isDefaultOf_iff.1 hn
    cases n with
    | member receiver property computed' o' =>
      rw [mapNames_member] at heq
      injection heq with hreceiver hproperty hcomputed
      subst hproperty hcomputed
      obtain ⟨x, rfl, hx⟩ := eq_identifier_of_mapNames hreceiver
      exact ⟨x, isDefaultOf_iff.2 ⟨property, _, o',
        propertyName?_mapNames.symm.trans hname, rfl⟩, hx⟩
    | identifier x => cases heq
    | _ =>
      rw [mapNames_eq rfl] at heq
      cases heq
  · rintro ⟨x, hn, rfl⟩
    obtain ⟨property, computed, o, hname, rfl⟩ := isDefaultOf_iff.1 hn
    rw [mapNames_member]
    exact isDefaultOf_iff.2 ⟨_, computed, o, propertyName?_mapNames.trans hname, rfl⟩

end Node

/-! ## Renaming -/

namespace Renaming

open Node

variable {r : Renaming} {n : Node}

theorem apply_cases (r : Renaming) (x : Text) : r.apply x = x ∨ (x, r.apply x) ∈ r.entries := by
  rw [apply]
  rcases hget : r.get? x with _ | y
  · exact .inl rfl
  · exact .inr (Table.mem_of_get? hget)

/-- What collapses is `a.default` of a name in the table, and it becomes `a`. -/
theorem collapse?_eq_some_iff {m : Node} :
    r.collapse? n = some m ↔ ∃ x, n.IsDefaultOf x ∧ r.isBinding x = true ∧ m = identifier x := by
  constructor
  · intro h
    have hdefault : n.isMemberNamed "default" = true := by
      by_contra hnot
      rw [collapse?, if_neg hnot] at h
      cases h
    obtain ⟨x, property, computed, o, rfl, rfl, hbinding⟩ := collapse?_eq_some h
    exact ⟨x, ⟨hdefault, rfl⟩, hbinding, rfl⟩
  · rintro ⟨x, ⟨hdefault, hreceiver⟩, hbinding, rfl⟩
    rw [collapse?, if_pos hdefault, hreceiver]
    exact if_pos hbinding

theorem collapse?_eq_none (h : ∀ x, n.IsDefaultOf x → r.isBinding x = false) :
    r.collapse? n = none := by
  rcases hcollapse : r.collapse? n with _ | m
  · rfl
  · obtain ⟨x, hdefault, hbinding, -⟩ := collapse?_eq_some_iff.1 hcollapse
    exact absurd ((h x hdefault).symm.trans hbinding) Bool.false_ne_true

theorem rename?_of_identifierName? (hn : n.identifierName? = none) :
    r.rename? n = r.collapse? n := by
  unfold rename?
  split
  · cases hn
  · rfl

/-- One step of renaming changes the name of a node, and none below it. -/
theorem names_rename? (r : Renaming) (n : Node) :
    ((r.rename? n).getD n).names = n.identifierName?.toList.map r.apply ++
      n.children.flatMap names := by
  rcases hname : n.identifierName? with _ | x
  · have hbelow : n.names = n.children.flatMap names := by
      rw [names_eq, hname]
      rfl
    rw [rename?_of_identifierName? hname]
    rcases hcollapse : r.collapse? n with _ | m
    · exact hbelow
    · obtain ⟨x, hdefault, -, rfl⟩ := collapse?_eq_some_iff.1 hcollapse
      exact (names_of_isDefaultOf hdefault).symm.trans hbelow
  · obtain rfl := identifierName?_eq_some.1 hname
    rfl

/-- Renaming the bindings of a tree gives its names their new ones; collapsing
    takes no name away. -/
theorem names_rewrite_rename? (r : Renaming) (n : Node) :
    (n.rewrite r.rename?).names = n.names.map r.apply :=
  names_rewrite r.names_rename? n

/-- To rename a tree is to map its names, if no `a.default` collapses. -/
theorem rewrite_rename? (h : ∀ m ∈ n.walk, ∀ x, m.IsDefaultOf x → r.isBinding (r.apply x) = false) :
    n.rewrite r.rename? = n.mapNames r.apply := by
  induction n using induct with
  | h n ih =>
    have hslots : n.slotsMap (rewrite r.rename?) = n.slotsMap (mapNames r.apply) := by
      refine slotsMap_congr fun c hc => ih c (mem_parts_of_mem_children hc) fun m hm => h m ?_
      exact mem_walk_iff.2 (.inr ⟨c, hc, hm⟩)
    rcases hname : n.identifierName? with _ | x
    · rw [rewrite_eq, hslots, ← mapNames_eq hname, rename?_of_identifierName?, collapse?_eq_none]
      · rfl
      · intro y hy
        obtain ⟨x, hx, rfl⟩ := isDefaultOf_mapNames.1 hy
        exact h n n.mem_walk_self x hx
      · rw [mapNames_eq hname, identifierName?_withSlots, hname]
    · obtain rfl := identifierName?_eq_some.1 hname
      rfl

/-- A tree that is renamed already stays as it is. -/
theorem rewrite_rename?_eq_self (hcollapsed : r.Collapsed n)
    (hnames : ∀ x ∈ n.names, r.apply x = x) : n.rewrite r.rename? = n := by
  rw [rewrite_rename? fun m hm x hx => ?_, mapNames_eq_self hnames]
  have hmem : x ∈ n.names :=
    names_subset_of_mem_walk hm (names_of_isDefaultOf hx ▸ mem_singleton_self x)
  rw [hnames x hmem]
  exact hcollapsed m hm hx.1 x hx.2

/-- A statement is renamed as any other tree is. -/
theorem inStatement_eq (r : Renaming) (n : Node) : r.inStatement n = n.rewrite r.rename? := by
  by_cases hnone : r.entries.isEmpty = true
  · have hentries := List.isEmpty_iff.1 hnone
    rw [inStatement, if_pos hnone, rewrite_rename?_eq_self]
    · intro m _ _ x _
      rw [isBinding, hentries]
      rfl
    · exact fun x _ => apply_of_entries_eq_nil hentries x
  · rw [inStatement, if_neg hnone, rewrite]

/-- A program is renamed statement by statement. -/
theorem rewrite_program {program : Node} {body : List Node} (h : program.statements = .ok body) :
    program.rewrite r.rename? = program.withStatements (body.map (rewrite r.rename?)) := by
  obtain rfl | rfl | rfl := statements_cases h
  · rw [rewrite_eq]
    exact congrArg program (Slot.nodes_map_some _ _)
  · rw [rewrite_eq]
    exact congrArg block (Slot.nodes_map_some _ _)
  · rw [rewrite_eq]
    exact congrArg classBody (Slot.nodes_map_some _ _)

end Renaming

/-! ## Visits -/

/-- Nothing is done but to give functions their display names. -/
structure Config.OnlyDisplayNames (config : Config) : Prop where
  markup : config.markup = false
  classes : config.classes = false
  imports : config.imports = false
  exports : config.exports = false
  booleans : config.booleans = false
  indirectCalls : config.indirectCalls = false
  displayNames : config.displayNames = true

/-- Nothing is imported or rebuilt, and the new names are in a table. -/
structure PassState.IsQuiet (r : Renaming) (s : PassState) : Prop where
  renames : s.renames = r
  imported : s.imported = []
  imports : s.tally.imports = 0
  markup : s.tally.markup = 0

variable {e : Surroundings} {s s' : PassState} {r : Renaming}

/-- Where classes are left alone, looking for one changes nothing. -/
theorem Surroundings.ClassAt.isQuiet {kind : VariableKind} {inList alone : Bool} {d : Node}
    {o : Option (List Node)} (h : e.ClassAt kind inList alone d s o s') (hs : s.IsQuiet r) :
    s'.IsQuiet r := by
  obtain ⟨hrenames, himported, himports, hmarkup⟩ := h.keeps
  exact ⟨hrenames.trans hs.renames, himported.trans hs.imported, himports.trans hs.imports,
    hmarkup.trans hs.markup⟩

/-- Where only declarations are rebuilt, a node is renamed after its parts. -/
theorem Surroundings.settle_eq_rename? (hmarkup : e.config.markup = false)
    (hbooleans : e.config.booleans = false) (hindirect : e.config.indirectCalls = false)
    {accepts : Bool} {n n' : Node} (h : e.settle accepts n s = .ok (n', s')) :
    n' = (s.renames.rename? n).getD n ∧ s' = s := by
  have hsame := settle_of_not_markup hmarkup h
  refine ⟨?_, hsame⟩
  obtain ⟨rfl, -⟩ | hmarks := settle_cases h
  · unfold tidied
    split
    · rfl
    · rfl
    · rw [hindirect]
      rfl
    · rw [hbooleans]
      rfl
    · rename_i hidentifier hmember _ _
      rcases hrename : s.renames.rename? n with _ | m
      · rfl
      · unfold rename? at hrename
        split at hrename
        · exact absurd rfl (hidentifier _)
        · obtain ⟨x, property, computed, o, rfl, -, -⟩ := collapse?_eq_some hrename
          exact absurd rfl (hmember _ _ _ _)
  · -- an element would have been noted
    cases hmarks
    have hlength := congrArg (fun s => s.rebuilt.length) hsame
    simp at hlength

namespace Visit

open Node

/-- A node is renamed by a table, and all nodes below it. -/
def Swept (r : Renaming) : Law := fun _ n s ns _ =>
  s.IsQuiet r → ns = [n.rewrite r.rename?]

/-- Where only display names count, a visit changes nothing that counts. -/
theorem ofNode_isQuiet (he : e.config.OnlyDisplayNames) (r : Renaming) (n : Node) :
    (ofNode e n).Obeys (Keeping (PassState.IsQuiet r)) n := by
  refine ofNode_keeping ?_ (fun h => h.isQuiet) ?_ (fun _ _ hs => { hs with }) n
  · exact fun h hs => Surroundings.settle_of_not_markup he.markup h ▸ hs
  · intro inList alone d s s' hplace
    rw [Surroundings.isImport_eq_false he.imports] at hplace
    cases hplace

/-- By this law the nodes below are renamed, and the state is quiet. -/
abbrev Sweeping (r : Renaming) : Law :=
  Both (Keeping (PassState.IsQuiet r)) (Swept r)

/-- The nodes of a list are renamed. -/
theorem InList.swept {os os' : List (Option Node)}
    (h : InList (Sweeping r) os s os' s') (hs : s.IsQuiet r) :
    s'.IsQuiet r ∧ os' = os.map (Option.map (rewrite r.rename?)) := by
  induction h with
  | nil => exact ⟨hs, rfl⟩
  | hole rest ih =>
    obtain ⟨hs', rfl⟩ := ih hs
    exact ⟨hs', rfl⟩
  | node first rest ih =>
    obtain rfl := first.2 hs
    obtain ⟨hs', rfl⟩ := ih (first.1 hs)
    exact ⟨hs', rfl⟩

/-- What a field holds is renamed. -/
theorem InSlot.swept {slot slot' : Slot Node}
    (h : InSlot (Sweeping r) slot s slot' s') (hs : s.IsQuiet r) :
    s'.IsQuiet r ∧ slot' = slot.map (rewrite r.rename?) := by
  cases h with
  | none => exact ⟨hs, rfl⟩
  | single h => exact ⟨h.1 hs, by rw [(cons.inj (h.2 hs)).1]; rfl⟩
  | list h =>
    obtain ⟨hs', rfl⟩ := h.swept hs
    exact ⟨hs', rfl⟩

/-- What the walked fields hold is renamed, and the others stay. -/
theorem InFields.swept {fs : List (Field Node)} {slots : List (Slot Node)}
    (h : InFields (Sweeping r) fs s slots s') (hs : s.IsQuiet r) :
    s'.IsQuiet r ∧ slots = fs.map fun field => if field.walked
      then field.slot.map (rewrite r.rename?) else field.slot := by
  induction h with
  | nil => exact ⟨hs, rfl⟩
  | walked hf first rest ih =>
    obtain ⟨hs₁, rfl⟩ := first.swept hs
    obtain ⟨hs', rfl⟩ := ih hs₁
    exact ⟨hs', by rw [map_cons, if_pos hf]⟩
  | kept hf rest ih =>
    obtain ⟨hs', rfl⟩ := ih hs
    exact ⟨hs', by rw [map_cons, hf, if_neg Bool.false_ne_true]⟩

/-- All declarators stay, renamed. -/
theorem InDeclaration.swept (he : e.config.OnlyDisplayNames) {kind : VariableKind} {inList : Bool}
    {done ds ss : List Node} (h : InDeclaration (Sweeping r) e kind inList done ds s ss s')
    (hs : s.IsQuiet r) (hsome : done ++ ds ≠ []) :
    ss = [.varDecl kind (done ++ ds.map (rewrite r.rename?))] := by
  induction h with
  | nil done s =>
    rw [append_nil] at hsome
    rw [declaration, if_neg (mt List.isEmpty_iff.1 hsome), List.map_nil, List.append_nil]
  | rebuilt hn first hclass others =>
    -- neither classes nor imports are rebuilt
    obtain _ | _ | _ | ⟨hclasses⟩ := hclass
    rw [he.classes] at hclasses
    cases hclasses
  | loaded hn first hclass himport hplace others ih =>
    rw [Surroundings.isImport_eq_false he.imports] at hplace
    cases hplace
  | kept hn first hclass himport others ih =>
    obtain ⟨rfl, -⟩ := cons.inj (first.2 hs)
    have hs₂ := hclass.isQuiet (first.1 hs)
    rw [ih { hs₂ with } (by simp), map_cons, append_assoc]
    rfl
  | other hn first hleft others ih =>
    obtain rfl := first.2 hs
    rw [ih (first.1 hs) (by simp), map_cons, append_assoc]
    rfl
  | empty hn first => exact absurd (first.2 hs) (cons_ne_nil _ _).symm

/-- If only display names are given, visits rename. -/
theorem ofNode_swept (he : e.config.OnlyDisplayNames) (r : Renaming) (n : Node) :
    (ofNode e n).Obeys (Swept r) n := by
  have hvarDecl (kind : VariableKind) (ds : List Node) :
      (Node.varDecl kind ds).rewrite r.rename? = .varDecl kind (ds.map (rewrite r.rename?)) := by
    rw [rewrite_eq]
    exact congrArg (Node.varDecl kind) (Slot.nodes_map_some _ _)
  refine ofNode_obeys_both (ofNode_isQuiet he r) ?_ ?_ ?_ n
  · intro n inList accepts s s₁ s' slots n' _ hfields hsettle hs
    obtain ⟨hs₁, rfl⟩ := hfields.swept hs
    obtain ⟨rfl, -⟩ := Surroundings.settle_eq_rename? he.markup he.booleans he.indirectCalls hsettle
    rw [hs₁.renames, rewrite_eq]
    rfl
  · exact fun kind _ _ _ => by rw [hvarDecl]; rfl
  · intro kind inList ds ss s s' hds hin hs
    rw [hvarDecl]
    exact hin.swept he hs hds

end Visit

/-! ## The table -/

/-- A function declaration is given a display name by some statement. -/
def DisplayNamed (body : List Node) (x : Text) : Prop :=
  x ∈ body.filterMap Node.functionName? ∧ ∃ pretty, (x, pretty) ∈ body.filterMap Node.displayName?

/-- A function that gets a display name is named where it gets it. -/
theorem Node.displayName?_mem_names {n : Node} {x pretty : Text}
    (h : n.displayName? = some (x, pretty)) : x ∈ n.names := by
  unfold displayName? at h
  split at h
  · rename_i e
    split at h
    · rename_i heq
      split at h
      · cases h
        have hwalk := names_subset_of_mem_walk e.ungroup_mem_walk
        rw [heq] at hwalk
        rw [names_eq]
        refine mem_append_right _ (mem_flatMap.2 ⟨e, mem_singleton_self e, hwalk ?_⟩)
        exact mem_cons_self
      · cases h
    · cases h
  · cases h

/-- The table has new names for functions with display names: neither names of
    the program nor twice in the table. -/
structure Pass.Dubbed (names : List Text) (body : List Node) (s : PassState) : Prop where
  reserved : names ⊆ s.names.used
  displayNamed : ∀ entry ∈ s.renames.entries, DisplayNamed body entry.1
  old : ∀ entry ∈ s.renames.entries, entry.1 ∈ names
  new : ∀ entry ∈ s.renames.entries, entry.2 ∉ names
  used : ∀ entry ∈ s.renames.entries, entry.2 ∈ s.names.used
  nodup : (s.renames.entries.map Prod.snd).Nodup

namespace Pass

variable {names : List Text} {body : List Node}

/-- A function gets a display name only if that is free, so none twice. -/
theorem Dubbed.applyDisplayName (hs : Dubbed names body s) {x pretty : Text}
    (hsaid : (x, pretty) ∈ body.filterMap Node.displayName?) (hx : x ∈ names) :
    Dubbed names body (applyDisplayName (body.filterMap Node.functionName?) s x pretty) := by
  unfold Pass.applyDisplayName
  split
  · rename_i hgiven
    simp only [Bool.and_eq_true, contains_iff_mem] at hgiven
    obtain ⟨⟨⟨hfunction, -⟩, -⟩, hfree⟩ := hgiven
    have hfree : pretty ∉ s.names.used := fun hused => by
      rw [Names.has_iff.2 hused] at hfree
      cases hfree
    have hgrows {y : Text} (hy : y ∈ s.names.used) : y ∈ (s.names.insert pretty).used :=
      Names.mem_insert.2 (.inl hy)
    have hentry {entry : Text × Text} (h : entry ∈ (s.renames.add x pretty).entries) :
        entry ∈ s.renames.entries ∨ entry = (x, pretty) := mem_add h
    exact
      { reserved := fun y hy => hgrows (hs.reserved hy)
        displayNamed := fun entry h => (hentry h).elim (hs.displayNamed entry) fun h =>
          h ▸ ⟨hfunction, pretty, hsaid⟩
        old := fun entry h => (hentry h).elim (hs.old entry) fun h => h ▸ hx
        new := fun entry h => (hentry h).elim (hs.new entry) fun h => h ▸ fun hmem =>
          hfree (hs.reserved hmem)
        used := fun entry h =>
          (hentry h).elim (fun h => hgrows (hs.used entry h)) fun h =>
            h ▸ Names.mem_insert.2 (.inr rfl)
        nodup := by
          dsimp only [add]
          split
          · exact hs.nodup
          · -- all names that were given before are in use, and this one was free
            rw [map_append, nodup_append]
            refine ⟨hs.nodup, nodup_singleton _, fun y hy z hz => ?_⟩
            obtain ⟨entry, hmem, rfl⟩ := mem_map.1 hy
            rw [mem_singleton.1 hz]
            exact fun heq : entry.2 = pretty => hfree (heq ▸ hs.used entry hmem) }
  · exact hs

/-- Before the visits, the table has the display names and nothing else. -/
theorem start_dubbed {program : Node} (hbody : ∀ n ∈ body, n.names ⊆ program.names)
    (hdisplay : e.config.displayNames = true) :
    Dubbed program.names body (start e program body) := by
  have hempty : Dubbed program.names body { names := Names.ofProgram program } :=
    { reserved := fun x hx => mem_eraseDups.2 hx
      displayNamed := forall_mem_nil _
      old := forall_mem_nil _
      new := forall_mem_nil _
      used := forall_mem_nil _
      nodup := nodup_nil }
  rw [start, hdisplay, if_pos rfl]
  refine foldlRecOn _ _ hempty fun s hs said hsaid => hs.applyDisplayName hsaid ?_
  obtain ⟨n, hn, hsays⟩ := mem_filterMap.1 hsaid
  exact hbody n hn (Node.displayName?_mem_names hsays)

/-- Nothing else has been done by then. -/
theorem start_isQuiet (e : Surroundings) (program : Node) (body : List Node) :
    (start e program body).IsQuiet (start e program body).renames := by
  suffices hquiet : (start e program body).imported = [] ∧ (start e program body).tally = {} from
    ⟨rfl, hquiet.1, congrArg Tally.imports hquiet.2, congrArg Tally.markup hquiet.2⟩
  unfold start
  dsimp only
  split
  · refine foldlRecOn (motive := fun s : PassState => s.imported = [] ∧ s.tally = {}) _ _
      ⟨rfl, rfl⟩ fun s hs said _ => ?_
    unfold Pass.applyDisplayName
    split <;> exact hs
  · exact ⟨rfl, rfl⟩

section

variable (hs : Dubbed names body s)
include hs

/-- All names stay but those of functions with display names. -/
theorem Dubbed.apply_of_not_displayNamed {x : Text} (hx : ¬DisplayNamed body x) :
    s.renames.apply x = x :=
  (s.renames.apply_cases x).resolve_right fun hentry => hx (hs.displayNamed _ hentry)

/-- A name of the program stays, or becomes one that is not among them. -/
theorem Dubbed.apply_cases (x : Text) :
    s.renames.has x = false ∧ s.renames.apply x = x ∨ s.renames.has x = true ∧
      (x, s.renames.apply x) ∈ s.renames.entries ∧ s.renames.apply x ∉ names := by
  rw [apply, has]
  rcases hget : s.renames.get? x with _ | y
  · exact .inl ⟨rfl, rfl⟩
  · have hmem := Table.mem_of_get? hget
    exact .inr ⟨rfl, hmem, hs.new _ hmem⟩

/-- Different names of the program stay different. -/
theorem Dubbed.injOn : Set.InjOn s.renames.apply {x | x ∈ names} := by
  intro x hx y hy heq
  obtain ⟨-, hxsame⟩ | ⟨-, hxentry, hxnew⟩ := hs.apply_cases x <;>
  obtain ⟨-, hysame⟩ | ⟨-, hyentry, hynew⟩ := hs.apply_cases y
  · exact hxsame.symm.trans (heq.trans hysame)
  · exact absurd (heq ▸ hxsame.symm ▸ hx) hynew
  · exact absurd (heq.symm ▸ hysame.symm ▸ hy) hxnew
  · -- no new name is given twice
    have hsame := inj_on_of_nodup_map hs.nodup hxentry hyentry heq
    exact congrArg Prod.fst hsame

/-- A new name is not renamed again. -/
theorem Dubbed.apply_apply (x : Text) :
    s.renames.apply (s.renames.apply x) = s.renames.apply x := by
  obtain ⟨-, hsame⟩ | ⟨-, -, hnew⟩ := hs.apply_cases x
  · rw [hsame, hsame]
  · obtain ⟨-, hsame⟩ | ⟨-, hentry, -⟩ := hs.apply_cases (s.renames.apply x)
    · exact hsame
    · exact absurd (hs.old _ hentry) hnew

/-- Of the names of the program, the renamed ones are in the table. -/
theorem Dubbed.isBinding_apply {x : Text} (hx : x ∈ names) :
    s.renames.isBinding (s.renames.apply x) = s.renames.has x := by
  obtain ⟨hhas, hsame⟩ | ⟨hhas, hentry, -⟩ := hs.apply_cases x
  · rw [hhas, hsame]
    rcases hbinding : s.renames.isBinding x with _ | _
    · rfl
    · obtain ⟨entry, hentry, hold | hnew⟩ := mem_of_isBinding hbinding
      · have hnone : s.renames.entries.lookup x = none :=
          Option.not_isSome_iff_eq_none.1 (Bool.not_eq_true _ ▸ hhas)
        exact absurd hold.symm (bne_iff_ne.1 (lookup_eq_none_iff.1 hnone entry hentry))
      · exact absurd (hnew ▸ hx) (hs.new entry hentry)
  · rw [hhas, isBinding, any_eq_true]
    exact ⟨_, hentry, by simp⟩

end

end Pass

/-! ## Runs -/

/-- A run renames the statements, one after the other. -/
theorem Pass.Stage.Leads.swept {p q : Stage} (he : e.config.OnlyDisplayNames) (h : Leads e p q)
    (hp : p.state.IsQuiet r) :
    q.state.IsQuiet r ∧ ∃ visited, p.rest = visited ++ q.rest ∧
      q.done = p.done ++ visited.map (Node.rewrite r.rename?) := by
  induction h with
  | refl => exact ⟨hp, [], rfl, (append_nil _).symm⟩
  | tail _ hstep ih =>
    obtain @⟨done, done', stmt, rest, s, s', h⟩ := hstep
    obtain ⟨hs, visited, hrest, hdone⟩ := ih
    obtain ⟨ns, hns, rfl⟩ := step_of_not_exports he.exports h
    have hs' := (Visit.ofNode_isQuiet he r stmt).spliced hns hs
    obtain rfl := (Visit.ofNode_swept he r stmt).spliced hns hs
    refine ⟨hs', visited ++ [stmt], ?_, ?_⟩
    · rw [hrest, append_assoc]
      rfl
    · change done ++ _ = _
      rw [show done = _ from hdone, append_assoc, map_append]
      rfl

/-- A pass that gives display names leaves the program renamed by the table that
    it starts with. -/
theorem Outcome.Ran.eq_rewrite {o : Outcome} {program : Node} {body : List Node}
    (h : o.Ran program body) (he : o.surroundings.config.OnlyDisplayNames) :
    Pass.Dubbed program.names body
      { Pass.start o.surroundings program body with renames := o.state.renames } ∧
      o.program = program.rewrite o.state.renames.rename? := by
  obtain ⟨hquiet, visited, hvisited, hwalked⟩ :=
    Pass.Stage.Leads.swept he h.leads (Pass.start_isQuiet o.surroundings program body)
  obtain rfl : body = visited := hvisited.trans (append_nil _)
  have hdubbed :=
    Pass.start_dubbed (e := o.surroundings) (fun n hn => h.names_subset hn) he.displayNames
  rw [← hquiet.renames] at hwalked
  have hdubbed : Pass.Dubbed program.names body
      { Pass.start o.surroundings program body with renames := o.state.renames } := by
    rw [hquiet.renames]
    exact hdubbed
  refine ⟨hdubbed, ?_⟩
  -- to rename the statements once more does nothing
  have hrenamed : Pass.renamed o.surroundings o.state o.walked =
      body.map (Node.rewrite o.state.renames.rename?) := by
    rw [Pass.renamed, he.exports, sweep_program, show o.walked = _ from hwalked]
    change map _ (body.map _) = _
    rw [map_map]
    refine map_congr_left fun n hn => ?_
    rw [Function.comp_apply, inStatement_eq]
    refine rewrite_rename?_eq_self (collapsed_replaceAll _ n false) fun x hx => ?_
    rw [names_rewrite_rename?] at hx
    obtain ⟨y, -, rfl⟩ := mem_map.1 hx
    exact hdubbed.apply_apply y
  have hkept : o.kept = body.map (Node.rewrite o.state.renames.rename?) := by
    have hdrops := h.drops
    rw [Pass.idleHelpers_eq_nil hquiet.imports hquiet.markup, hrenamed] at hdrops
    exact (Except.ok.inj hdrops).symm
  have hadded : o.added = [] := by
    have hadds := h.adds
    rw [hquiet.imported] at hadds
    exact (Except.ok.inj hadds).symm
  rw [h.program_eq, hkept, hadded, Pass.splice_nil, rewrite_program h.statements]

/-- What a pass leaves that only gives display names to functions. Its table
    maps different names of the program to different names, and changes only
    names of functions with display names; the names in the program are mapped
    by it, in their order. This is all that the pass does, for this map or any
    other, if and only if the program has no `a.default` of a function `a` that
    gets another name. -/
theorem display_names_pure_iff {config : Config} {program : Node} {o : Outcome}
    (hconfig : config.OnlyDisplayNames) (h : reconstruct config program = .ok o) :
    ∃ body, program.statements = .ok body ∧
      Set.InjOn o.state.renames.apply {x | x ∈ program.names} ∧
      (∀ x, ¬DisplayNamed body x → o.state.renames.apply x = x) ∧
      o.program.names = program.names.map o.state.renames.apply ∧
      ((∃ f, Set.InjOn f {x | x ∈ program.names} ∧ (∀ x, ¬DisplayNamed body x → f x = x) ∧
          o.program = program.mapNames f) ↔
        ∀ m ∈ program.walk, ∀ x, m.IsDefaultOf x → o.state.renames.has x = false) := by
  obtain ⟨body, hran⟩ := reconstruct_ran h
  have he : o.surroundings.config.OnlyDisplayNames := by
    rw [reconstruct_config h, hconfig.exports]
    exact { hconfig with exports := rfl }
  obtain ⟨hdubbed, hprogram⟩ := hran.eq_rewrite he
  have hmem {m : Node} {x : Text} (hm : m ∈ program.walk)
      (hx : m.IsDefaultOf x) : x ∈ program.names :=
    Node.names_subset_of_mem_walk hm (Node.names_of_isDefaultOf hx ▸ mem_singleton_self x)
  have hnames : o.program.names = program.names.map o.state.renames.apply := by
    rw [hprogram, names_rewrite_rename?]
  refine ⟨body, hran.statements, hdubbed.injOn, fun x => hdubbed.apply_of_not_displayNamed,
    hnames, ?_, fun hdefault => ?_⟩
  · rintro ⟨f, -, -, hpure⟩ m hm x hx
    -- the map agrees with the table on the names of the program
    have hsame : ∀ y ∈ program.names, f y = o.state.renames.apply y := by
      rw [hpure, Node.names_mapNames] at hnames
      exact map_inj_left.1 hnames
    have hleft := Node.mem_walk_mapNames (f := f) hm
    rw [← hpure] at hleft
    obtain ⟨hnamed, hreceiver⟩ := Node.isDefaultOf_mapNames.2 ⟨x, hx, rfl⟩
    have hcollapsed := hran.collapsed _ hleft hnamed _ hreceiver
    rw [hsame x (hmem hm hx)] at hcollapsed
    exact (hdubbed.isBinding_apply (hmem hm hx)).symm.trans hcollapsed
  · refine ⟨o.state.renames.apply, hdubbed.injOn, fun x => hdubbed.apply_of_not_displayNamed, ?_⟩
    rw [hprogram, rewrite_rename? fun m hm x hx => ?_]
    exact (hdubbed.isBinding_apply (hmem hm hx)).trans (hdefault m hm x hx)

/-- The settings of a pass that only gives display names. -/
def displayNamesAlone : Config :=
  { markup := false, classes := false, imports := false, exports := false, booleans := false,
    indirectCalls := false }

theorem onlyDisplayNames_displayNamesAlone : displayNamesAlone.OnlyDisplayNames :=
  ⟨rfl, rfl, rfl, rfl, rfl, rfl, rfl⟩

/-- `x.displayName = "pretty";` -/
def dubbing (x pretty : Text) : Node :=
  .exprStmt (.assignment "=" (.member (.identifier x) (.identifier "displayName") false false)
    (.literal (.string pretty) none))

/-- `x.default();` -/
def callingDefault (x : Text) : Node :=
  .exprStmt (.call (.member (.identifier x) (.identifier "default") false false) [] false)

/-- `function a() {} function b() { a(); } a.displayName = "Pretty";
    b.displayName = "Pretty"; b.default();` -/
def dubbedTwice : Node :=
  .program [namedFunction "a" [], namedFunction "b" [.exprStmt (.call (.identifier "a") [] false)],
    dubbing "a" "Pretty", dubbing "b" "Pretty", callingDefault "b"]

/-- Of two functions with the same display name one gets it, and the other one
    keeps its property. -/
theorem display_names_pure_iff_dubbedTwice :
    ∃ o, reconstruct displayNamesAlone dubbedTwice = .ok o ∧
      o.state.renames.entries = [(Text.ofString "a", Text.ofString "Pretty")] ∧
      o.program.names = dubbedTwice.names.map o.state.renames.apply ∧
      ∃ f, Set.InjOn f {x | x ∈ dubbedTwice.names} ∧ o.program = dubbedTwice.mapNames f := by
  obtain ⟨o, ho, hentries⟩ : ∃ o, reconstruct displayNamesAlone dubbedTwice = .ok o ∧
      o.state.renames.entries = [(Text.ofString "a", Text.ofString "Pretty")] :=
    exists_outcome (by decide +kernel)
  have hdefaults : ∀ m ∈ dubbedTwice.walk, m.isMemberNamed "default" = true →
      m.receiver?.bind Node.identifierName? = some "b" := by decide +kernel
  obtain ⟨body, -, -, -, hnames, hiff⟩ :=
    display_names_pure_iff onlyDisplayNames_displayNamesAlone ho
  obtain ⟨f, hinj, -, hpure⟩ := hiff.2 fun m hm x hx => by
    have hreceiver := hdefaults m hm hx.1
    rw [hx.2] at hreceiver
    rw [Option.some.inj hreceiver, has, get?, hentries]
    rfl
  exact ⟨o, ho, hentries, hnames, f, hinj, hpure⟩

/-- `function a() {} a.displayName = "Pretty"; a.default();` -/
def dubbedDefault : Node :=
  .program [namedFunction "a" [], dubbing "a" "Pretty", callingDefault "a"]

/-- A function loses its property `default` with its name, which no map of names
    does. -/
theorem display_names_not_pure :
    ∃ o, reconstruct displayNamesAlone dubbedDefault = .ok o ∧
      ∀ f, o.program ≠ dubbedDefault.mapNames f := by
  obtain ⟨o, ho, hnone⟩ : ∃ o, reconstruct displayNamesAlone dubbedDefault = .ok o ∧
      ∀ m ∈ o.program.walk, m.isMemberNamed "default" = false := exists_outcome (by decide +kernel)
  refine ⟨o, ho, fun f heq => ?_⟩
  let m : Node := .member (.identifier "a") (.identifier "default") false false
  have hm : m ∈ dubbedDefault.walk := mem_of_getElem? (i := 11) rfl
  have hleft := hnone _ (heq ▸ Node.mem_walk_mapNames (f := f) hm)
  have hdefault : (m.mapNames f).IsDefaultOf (f "a") :=
    Node.isDefaultOf_mapNames.2 ⟨_, ⟨rfl, rfl⟩, rfl⟩
  exact absurd (hleft.symm.trans hdefault.1) Bool.false_ne_true

end Resugar
