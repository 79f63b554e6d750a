import Resugar.Markup.Rebuild
import Resugar.Proofs.Tree.Vocabulary

/-!
# What props write

All props of an element come into one object. They are written there one after
the other, and the last one with a name wins, so the order of writes is what
props mean (`PropsMeaning`). Of an expression that is neither an object literal
nor a merge of several objects nothing is known but that it writes the same
wherever it is spread. The attributes of an element are read in the same way.
-/

namespace Resugar

open Node List

/-- A property that is written, and its value. -/
abbrev Write (V : Type) := Text × V

/-- What expressions give as props. -/
structure PropsMeaning (V : Type) where
  string : Text → V
  other : Node → V
  /-- What an entry writes that has no plain name: its key is computed or a
      number, or it is a method or an accessor. -/
  entry : Node → Write V
  /-- What an expression writes that is no object literal, `null` or
      `undefined`. -/
  spread : Node → List (Write V)

/-- The value of an attribute is in braces, or a string without spelling. -/
theorem Node.attributeValue_cases (v : Node) :
    v.attributeValue = .container v ∨
      ∃ t, v.stringValue? = some t ∧ v.attributeValue = .literal (.string t) none := by
  unfold Node.attributeValue
  split
  · rename_i t ht
    split
    · exact .inr ⟨t, ht, rfl⟩
    · exact .inl rfl
  · exact .inl rfl

namespace PropsMeaning

variable {V : Type} (M : PropsMeaning V)

/-- The value of an expression. -/
def value (n : Node) : V :=
  match n.stringValue? with
  | some t => M.string t
  | none => M.other n

/-- What an entry of an object literal writes that is no spread. -/
def entryWrite (n : Node) : Write V :=
  match n with
  | .entry key value .init false _ false =>
    match key.keyName? with
    | some name => (name, M.value value)
    | none => M.entry n
  | _ => M.entry n

mutual

/-- What an expression writes that is spread, or that is a part of a merge. -/
def writes : Node → List (Write V)
  | .parenthesized e => writes e
  | .literal .null _ => []
  | .object entries => writesOfEntries entries
  | .identifier name => if name = Text.ofString "undefined" then [] else M.spread (.identifier name)
  | n => M.spread n

/-- What an entry of an object literal writes. -/
def writesOfEntry : Node → List (Write V)
  | .spread e => writes e
  | n => [M.entryWrite n]

/-- What the entries of an object literal write. -/
def writesOfEntries : List Node → List (Write V)
  | [] => []
  | e :: es => writesOfEntry e ++ writesOfEntries es

end

/-- What props write: a call that merges several objects writes what its
    arguments write. -/
def writesOfProps (n : Node) : List (Write V) :=
  match n.ungroup with
  | .call callee arguments o =>
    if isComposedSpread (.call callee arguments o) then arguments.flatMap M.writes
    else M.spread (.call callee arguments o)
  | m => M.writes m

/-- What an attribute of an element writes. -/
def writesOfAttribute : Node → List (Write V)
  | .namedAttribute name none => [(name, M.value (.literal (.bool true) none))]
  | .namedAttribute name (some (.container e)) => [(name, M.value e)]
  | .namedAttribute name (some e) => [(name, M.value e)]
  | .spreadAttribute e => M.writes e
  | _ => []

/-- What the attributes that props give write in the tag. -/
def writesOfAttributes (attrs : List Attribute) : List (Write V) :=
  (attrs.map Attribute.toNode).flatMap M.writesOfAttribute

/-- The attributes of props write what they should, or props are refused. -/
def Yields (attrs : Except Fault (List Attribute)) (ws : List (Write V)) : Prop :=
  (∃ l, attrs = .ok l ∧ M.writesOfAttributes l = ws) ∨
    ∃ kind, attrs = .error (.unsupportedProps kind)

variable {M}

/-- Entries write one after the other. -/
theorem writesOfEntries_eq (entries : List Node) :
    M.writesOfEntries entries = entries.flatMap M.writesOfEntry := by
  induction entries with
  | nil => rw [writesOfEntries, flatMap_nil]
  | cons e es ih => rw [writesOfEntries, ih, flatMap_cons]

theorem writes_object (entries : List Node) :
    M.writes (.object entries) = entries.flatMap M.writesOfEntry := by
  rw [writes, writesOfEntries_eq]

theorem writes_ungroup (n : Node) : M.writes n.ungroup = M.writes n := by
  fun_induction ungroup n with
  | case1 e ih => rw [ih, writes]
  | case2 n => rfl

/-- A string is worth the same in quotes and in braces. -/
theorem writesOfAttribute_named (name : Text) (v : Node) :
    M.writesOfAttribute (Attribute.named name v).toNode = [(name, M.value v)] := by
  rw [Attribute.toNode]
  obtain hv | ⟨t, ht, hv⟩ := v.attributeValue_cases
  · rw [hv]
    rfl
  · rw [hv, value, ht]
    rfl

theorem writesOfAttributes_append (l l' : List Attribute) :
    M.writesOfAttributes (l ++ l') = M.writesOfAttributes l ++ M.writesOfAttributes l' := by
  rw [writesOfAttributes, map_append, flatMap_append]
  rfl

theorem yields_ok {l : List Attribute} {ws : List (Write V)} (h : M.writesOfAttributes l = ws) :
    M.Yields (.ok l) ws :=
  .inl ⟨l, rfl, h⟩

/-- Attributes that are given write what they should. -/
theorem Yields.writes_eq {l : List Attribute} {ws : List (Write V)} (h : M.Yields (.ok l) ws) :
    M.writesOfAttributes l = ws := by
  obtain ⟨l', hl', h⟩ | ⟨kind, hkind⟩ := h
  · cases hl'
    exact h
  · cases hkind

variable (M) in
theorem yields_spread (n : Node) : M.Yields (.ok [.spread n]) (M.writes n) :=
  yields_ok (append_nil _)

/-- What the members of a list yield one by one, they yield together. -/
theorem yields_mapM {α β : Type} {f : α → Except Fault β} (attrsOf : β → List Attribute)
    {g : α → List (Write V)} {l : List α} (h : ∀ a ∈ l, M.Yields (attrsOf <$> f a) (g a)) :
    M.Yields ((·.flatMap attrsOf) <$> l.mapM f) (l.flatMap g) := by
  induction l with
  | nil => exact yields_ok rfl
  | cons a l ih =>
    obtain ⟨ha, hl⟩ := forall_mem_cons.1 h
    rw [mapM_cons]
    obtain ⟨attrs, hattrs, hwrites⟩ | ⟨kind, hkind⟩ := ha
    · obtain ⟨b, hb, rfl⟩ := map_eq_ok.1 hattrs
      rw [hb]
      obtain ⟨attrs', hattrs', hwrites'⟩ | ⟨kind, hkind⟩ := ih hl
      · obtain ⟨bs, hbs, rfl⟩ := map_eq_ok.1 hattrs'
        refine .inl ⟨attrsOf b ++ bs.flatMap attrsOf, ?_, ?_⟩
        · rw [hbs]
          rfl
        · rw [writesOfAttributes_append, hwrites, hwrites', flatMap_cons]
      · rw [map_eq_error.1 hkind]
        exact .inr ⟨kind, rfl⟩
    · rw [map_eq_error.1 hkind]
      exact .inr ⟨kind, rfl⟩

end PropsMeaning

namespace Node

variable {V : Type} (M : PropsMeaning V)

/-! ## What the attributes write -/

/-- An entry with an attribute name is a pair with a written key. -/
theorem attributeName?_eq_some {n : Node} {name : Text} (h : n.attributeName? = some name) :
    ∃ key value shorthand, n = entry key value .init false shorthand false ∧
      key.keyName? = some name := by
  unfold attributeName? at h
  split at h
  · rename_i key value shorthand
    exact ⟨key, value, shorthand, rfl, (Option.filter_eq_some_iff.1 h).1⟩
  · cases h

/-- An entry becomes one attribute, named or a spread of an object with this
    entry, or it is refused. -/
theorem entryAttribute_yields (n : Node) :
    M.Yields ((fun a => [a]) <$> n.entryAttribute) (M.writesOfEntry n) := by
  unfold entryAttribute
  split
  · rename_i e
    refine PropsMeaning.yields_ok ?_
    rw [PropsMeaning.writesOfEntry]
    exact append_nil _
  · rename_i key value kind computed shorthand isMethod
    have hentry : M.writesOfEntry (entry key value kind computed shorthand isMethod) =
        [M.entryWrite (entry key value kind computed shorthand isMethod)] := rfl
    split
    · -- only an entry with a plain name can be a named attribute
      rename_i name hname
      obtain ⟨key, value, shorthand, heq, hkey⟩ := attributeName?_eq_some hname
      cases heq
      refine PropsMeaning.yields_ok ?_
      rw [hentry, PropsMeaning.entryWrite, hkey]
      exact (append_nil _).trans (PropsMeaning.writesOfAttribute_named name value)
    · -- any other entry is spread, in an object of its own
      refine PropsMeaning.yields_ok ?_
      show M.writes (object [_]) ++ [] = _
      rw [append_nil, PropsMeaning.writes_object, flatMap_singleton]
  · exact .inr ⟨_, rfl⟩

/-- The entries of an object give attributes that write what the object does. -/
theorem entries_yield (entries : List Node) :
    M.Yields (entries.mapM entryAttribute) (M.writes (object entries)) := by
  have h :=
    PropsMeaning.yields_mapM (fun a => [a]) fun e (_ : e ∈ entries) => entryAttribute_yields M e
  rw [← PropsMeaning.writes_object] at h
  have hsingle : (fun attrs : List Attribute => attrs.flatMap fun a => [a]) = id :=
    funext flatMap_singleton'
  rwa [hsingle, id_map] at h

theorem isNamed_identifier {name x : Text} : (identifier name).isNamed x = true ↔ name = x := by
  rw [isNamed, beq_iff_eq]
  exact Option.some_inj

/-- `undefined` writes nothing, and another name is spread. -/
theorem identifier_yields (name : Text) :
    M.Yields (.ok (if name = Text.ofString "undefined" then [] else [.spread (identifier name)]))
      (M.writes (identifier name)) := by
  split
  · rename_i hname
    subst hname
    exact PropsMeaning.yields_ok rfl
  · exact M.yields_spread _

theorem barePartAttributes_yields (n : Node) : M.Yields n.barePartAttributes (M.writes n) := by
  cases n <;> try exact M.yields_spread _
  case literal v spelling =>
    cases v <;> try exact M.yields_spread _
    exact PropsMeaning.yields_ok rfl
  case object entries => exact entries_yield M entries
  case identifier name =>
    show M.Yields (.ok (if (identifier name).isNamed "undefined" then [] else
      [.spread (identifier name)])) _
    simp only [isNamed_identifier]
    exact identifier_yields M name

/-- A part of a merge writes what its attributes write. -/
theorem partAttributes_yields (n : Node) : M.Yields n.partAttributes (M.writes n) := by
  rw [← PropsMeaning.writes_ungroup]
  exact barePartAttributes_yields M n.ungroup

/-- So does an argument of a merge, `undefined` too, which is spread. -/
theorem argumentAttributes_yields (n : Node) : M.Yields n.argumentAttributes (M.writes n) := by
  unfold argumentAttributes
  split
  · exact M.yields_spread _
  · exact partAttributes_yields M n

/-- Props write what their attributes write. -/
theorem attributes_yields (n : Node) : M.Yields n.attributes (M.writesOfProps n) := by
  rw [attributes, PropsMeaning.writesOfProps]
  generalize n.ungroup = m
  cases m <;> try exact .inr ⟨_, rfl⟩
  case literal v spelling =>
    cases v <;> try exact .inr ⟨_, rfl⟩
    exact PropsMeaning.yields_ok rfl
  case object entries => exact entries_yield M entries
  case conditional => exact M.yields_spread _
  case logical => exact M.yields_spread _
  case member => exact M.yields_spread _
  case identifier name => exact identifier_yields M name
  case call callee arguments o =>
    rw [bareAttributes]
    dsimp only
    split
    · -- a merge is taken apart, but a merge within it is spread
      have h : M.Yields ((·.flatMap id) <$> arguments.mapM argumentAttributes)
          (arguments.flatMap M.writes) := by
        refine PropsMeaning.yields_mapM id fun a _ => ?_
        rw [id_map]
        exact argumentAttributes_yields M a
      rw [map_eq_pure_bind] at h
      simpa only [flatMap_id] using h
    · exact M.yields_spread _

/-! ## Which props are refused -/

/-- The kinds of expressions that are taken as props. -/
def canBeProps : Node → Bool
  | literal .null _ => true
  | identifier _ => true
  | object _ => true
  | call .. => true
  | conditional .. => true
  | logical .. => true
  | member .. => true
  | _ => false

/-- What an object literal may hold. -/
def isObjectEntry : Node → Bool
  | entry .. => true
  | spread _ => true
  | _ => false

/-- The entries of an object literal. -/
def objectEntries? : Node → Option (List Node)
  | object entries => some entries
  | _ => none

/-- The object literals that are taken apart when props become attributes. -/
def flattenedObjects : Node → List (List Node)
  | object entries => [entries]
  | call callee arguments o =>
    if isComposedSpread (call callee arguments o)
      then arguments.filterMap (·.ungroup.objectEntries?) else []
  | _ => []

theorem isOk_entryAttribute (n : Node) : n.entryAttribute.isOk = n.isObjectEntry := by
  cases n <;> try rfl
  case entry =>
    unfold entryAttribute
    dsimp only
    split <;> rfl

theorem isOk_entries (entries : List Node) :
    (entries.mapM entryAttribute).isOk = entries.all isObjectEntry := by
  rw [isOk_mapM]
  exact all_congr rfl isOk_entryAttribute

/-- A part of a merge gives attributes if it holds what it may. -/
theorem isOk_barePartAttributes (n : Node) :
    n.barePartAttributes.isOk = n.objectEntries?.all fun entries => entries.all isObjectEntry := by
  cases n <;> try rfl
  case literal v spelling => cases v <;> rfl
  case object entries => exact isOk_entries entries

theorem isOk_argumentAttributes (n : Node) :
    n.argumentAttributes.isOk = n.ungroup.objectEntries?.all fun entries =>
      entries.all isObjectEntry := by
  rw [← isOk_barePartAttributes]
  cases n <;> rfl

/-- Props are taken if they are of a kind that can be props, and no object
    literal in them holds anything but entries. -/
theorem isOk_attributes (n : Node) :
    n.attributes.isOk = (n.ungroup.canBeProps && n.ungroup.flattenedObjects.all fun entries =>
      entries.all isObjectEntry) := by
  rw [attributes]
  generalize n.ungroup = m
  cases m <;> try rfl
  case literal v spelling => cases v <;> rfl
  case object entries =>
    rw [bareAttributes, isOk_entries]
    exact (Bool.and_true _).symm
  case call callee arguments o =>
    rw [bareAttributes, flattenedObjects]
    split
    · have hflatten : (do return (← arguments.mapM argumentAttributes).flatten : Except Fault
          (List Attribute)).isOk = (arguments.mapM argumentAttributes).isOk := by
        cases arguments.mapM argumentAttributes <;> rfl
      rw [hflatten, isOk_mapM, canBeProps, Bool.true_and, all_filterMap]
      refine all_congr rfl fun a => ?_
      rw [isOk_argumentAttributes]
      cases a.ungroup.objectEntries? <;> rfl
    · rfl

end Node

/-- Attributes write what the props wrote, in the same order, or the props are
    refused: those of a call, which may be missing, and those that are a part of
    a merge. Props are refused if they are of no kind that can be props, or if
    an object literal that is taken apart holds something that is no entry. -/
theorem attributes_write_props {V : Type} (M : PropsMeaning V) (f : Frame) (part : Node) :
    M.Yields f.attributes (f.props.elim [] M.writesOfProps) ∧
      M.Yields part.partAttributes (M.writes part) ∧
      f.attributes.isOk = f.props.all fun props => props.ungroup.canBeProps &&
        props.ungroup.flattenedObjects.all fun entries => entries.all isObjectEntry := by
  rw [Frame.attributes]
  refine ⟨?_, partAttributes_yields M part, ?_⟩
  · cases f.props with
    | none => exact PropsMeaning.yields_ok rfl
    | some props => exact attributes_yields M props
  · cases f.props with
    | none => rfl
    | some props => exact isOk_attributes props

end Resugar
