import Resugar.Proofs.Class.MemberNames
import Resugar.Proofs.Markup.Writes
import Resugar.Proofs.Pass.Run
import Resugar.Proofs.Printer.Nesting
import Resugar.Proofs.Text.Identifier

/-!
# Strings that are written as names

Several rewrites find a name in a string and write it without quotes: members of
classes get their keys from `a["b"]`, exports theirs from `exports["b"]`,
functions their names from `displayName`, and attributes theirs from the keys of
props. Each of them tests the string first (`Text.isIdentifier`,
`Text.isAttributeName`). What passes the test is printed as it is, so it had
better be a name for a reader.
-/

namespace Resugar

open Node

/-- A text with no line feed but possibly at its end is not changed when it is
    moved to the right. -/
theorem Text.nest_of_dropFinalNewline {t : Text}
    (h : CodePoint.ofChar '\n' ∉ t.dropFinalNewline) (depth : Nat) : nest depth t = t := by
  obtain hdrop | hdrop := t.dropFinalNewline_cases
  · exact nest_of_notMem (hdrop ▸ h) depth
  · have hshift : shift false t = t := by
      rw [hdrop, shift_append, shift_false_of_notMem h]
      simp [shift, isFeed]
    induction depth with
    | zero => rfl
    | succ depth ih => rw [nest, ih, hshift]

namespace Node

/-- The key of a member of a class. -/
def keyNode? : Node → Option Node
  | method key _ _ _ _ => some key
  | classField key _ _ _ => some key
  | _ => none

/-- What a rewrite writes for a string. -/
inductive Unquotes (key : Text) : Node → Prop where
  /-- The key of a member that an assignment defines:
      `a["b"] = function () …`. -/
  | assigned {names : ClassNames} {e receiver property right m n : Node}
    {operator : Text} {o : Bool} :
    e.ungroup = assignment operator (member receiver property true o) right →
      property.stringValue? = some key → names.assignedMember? (exprStmt e) = .ok (some m) →
      m.keyNode? = some n → Unquotes key n
  /-- The key of a member that a descriptor defines. -/
  | described {descriptor keyNode m n : Node} {entries ms : List Node}
    {parts : Table Node} {isStatic : Bool} :
    descriptor.ungroup = object entries → descriptorParts? entries = some parts →
      parts.get? "key" = some keyNode →
    keyNode.ungroup.stringValue? = some key →
      describedMethods? isStatic descriptor = some ms → m ∈ ms →
    m.keyNode? = some n → Unquotes key n
  | defined {e target keyNode value value' n : Node} {f operator : Text} {o : Bool} :
    e.ungroup = call (identifier f) [target, keyNode, value] o →
      keyNode.ungroup.stringValue? = some key →
      definedProperty (exprStmt e) =
        exprStmt (assignment operator (member thisExpr n false false) value') → Unquotes key n
  /-- A variable that is declared where it is exported. -/
  | declared {e : Surroundings} {done done' rest : List Node} {stmt n : Node}
    {s s' : PassState} {binding : Text}
    {kind : VariableKind} {init : Option Node} :
    stmt.exportAssignment? = some (key, binding) →
    Pass.exportAt? e done stmt rest s =
      .ok (some (done', exportNamed (some (varDecl kind [declarator n init]))
        [] none), s') → Unquotes key n
  | exported {e : Surroundings} {done done' rest : List Node} {stmt n b : Node}
    {s s' : PassState} {binding : Text} :
    stmt.exportAssignment? = some (key, binding) →
      Pass.exportAt? e done stmt rest s =
        .ok (some (done', exportNamed none [exportName b n] none), s') → Unquotes key n
  /-- What a function is called after its `displayName`. -/
  | renamed {e : Surroundings} {program n : Node} {body : List Node} {x : Text} :
    (Pass.start e program body).renames.get? x = some key →
    (Pass.start e program body).renames.rename? (identifier x) = some n → Unquotes key n

variable {n m e property value : Node} {key name binding : Text}

/-! ## Members -/

/-- A key is written as a name only if it is an identifier. -/
theorem stringKey_eq_identifier (h : stringKey key = identifier name) :
    name = key ∧ key.isIdentifier = true := by
  unfold stringKey at h
  split at h
  · rename_i hkey
    cases h
    exact ⟨rfl, hkey⟩
  · cases h

theorem memberKey_of_stringValue (h : property.stringValue? = some key) :
    memberKey property true = (stringKey key, false) := by
  rw [memberKey, if_pos rfl, h]

/-- So is a computed key that is a string. -/
theorem memberKey_eq_identifier (hkey : property.stringValue? = some key)
    (h : (memberKey property true).1 = identifier name) : name = key ∧ key.isIdentifier = true := by
  rw [memberKey_of_stringValue hkey] at h
  exact stringKey_eq_identifier h

/-- A member that is assigned has the key of the property. -/
theorem assignedMember?_keyNode {names : ClassNames} {receiver right : Node} {operator : Text}
    {computed o : Bool}
    (he : e.ungroup = assignment operator (member receiver property computed o) right)
    (h : names.assignedMember? (exprStmt e) = .ok (some m)) :
    m.keyNode? = some (memberKey property computed).1 := by
  obtain ⟨e', receiver', property', computed', o', right', isStatic, heq, he', -, hm⟩ :=
    ClassNames.assignedMember?_cases h
  cases heq
  cases he.symm.trans he'
  obtain ⟨f, -, -, rfl⟩ | ⟨-, -, rfl⟩ := hm
  · rfl
  · rfl

/-- A method from a descriptor has the key of the descriptor. -/
theorem descriptorMethod?_keyNode {parts : Table Node} {key : Node} {computed isStatic : Bool}
    {part : String} {kind : MethodKind} {ms : List Node}
    (h : descriptorMethod? parts key computed isStatic part kind = some ms) :
    ∀ m ∈ ms, m.keyNode? = some key := by
  obtain ⟨-, rfl⟩ | ⟨value, f, -, -, rfl⟩ := descriptorMethod?_cases h
  · exact List.forall_mem_nil _
  · exact List.forall_mem_singleton.2 rfl

theorem describedMethods?_keyNode {descriptor keyNode : Node} {entries ms : List Node}
    {parts : Table Node} {isStatic : Bool} (hobject : descriptor.ungroup = object entries)
    (hparts : descriptorParts? entries = some parts) (hkey : parts.get? "key" = some keyNode)
    (h : describedMethods? isStatic descriptor = some ms) :
    ∀ m ∈ ms, m.keyNode? = some (memberKey keyNode.ungroup true).1 := by
  obtain ⟨entries', parts', keyNode', key', computed, getters, setters, values, hobject', hparts',
    hkey', hmember, hgetters, hsetters, hvalues, rfl, -⟩ := describedMethods?_cases h
  obtain rfl := object.inj (hobject.symm.trans hobject')
  obtain rfl := Option.some.inj (hparts.symm.trans hparts')
  obtain rfl := Option.some.inj (hkey.symm.trans hkey')
  rw [hmember]
  exact List.forall_mem_append.2 ⟨List.forall_mem_append.2 ⟨descriptorMethod?_keyNode hgetters,
    descriptorMethod?_keyNode hsetters⟩, descriptorMethod?_keyNode hvalues⟩

/-- A property that is defined by a string is assigned by name only if that is
    an identifier. -/
theorem isIdentifier_of_definedProperty {target keyNode value' : Node} {f operator : Text}
    {o : Bool} (he : e.ungroup = call (identifier f) [target, keyNode, value] o)
    (hkey : keyNode.ungroup.stringValue? = some key) (h : definedProperty (exprStmt e) =
      exprStmt (assignment operator (member thisExpr (identifier name) false false) value')) :
    name = key ∧ key.isIdentifier = true := by
  unfold definedProperty at h
  dsimp only at h
  rw [he] at h
  dsimp only at h
  split at h
  · rw [hkey] at h
    cases hfilter : (some key).filter Text.isIdentifier with
    | none =>
      rw [hfilter] at h
      simp at h
    | some x =>
      rw [hfilter] at h
      cases h
      obtain ⟨hx, hidentifier⟩ := Option.filter_eq_some_iff.1 hfilter
      cases hx
      exact ⟨rfl, hidentifier⟩
  · -- the statement is left as it is, and it is a call
    cases h
    cases he

/-! ## Exports -/

/-- An export of a value declares its key. -/
theorem exportValue_eq_declared {x : Node} {kind : VariableKind} {init : Option Node}
    (h : exportValue key value = exportNamed (some (varDecl kind [declarator x init])) [] none) :
    key ≠ defaultKey ∧ x = identifier key := by
  unfold exportValue at h
  split at h
  · cases h
  · rename_i hkey
    cases h
    exact ⟨hkey, rfl⟩

theorem exportValue_ne_exported {b x : Node} :
    exportValue key value ≠ exportNamed none [exportName b x] none := by
  unfold exportValue
  split <;> simp

/-- An export of a binding names its key only if that is an identifier. -/
theorem exportBinding_eq_exported {b : Node}
    (h : exportBinding key binding = exportNamed none [exportName b (identifier name)] none) :
    name = key ∧ key.isIdentifier = true := by
  unfold exportBinding at h
  split at h
  · cases h
  · injection h with _ hnames
    injection hnames with hname
    injection hname with _ hexported
    exact stringKey_eq_identifier hexported

theorem exportBinding_ne_declared {declaration : Node} :
    exportBinding key binding ≠ exportNamed (some declaration) [] none := by
  unfold exportBinding
  split <;> simp

/-- Only an identifier can be declared. -/
theorem isIdentifier_of_canDeclare {names : Names} (h : Pass.canDeclare names key binding = true)
    (hkey : key ≠ defaultKey) : key.isIdentifier = true := by
  rw [Pass.canDeclare, Bool.or_eq_true, Bool.and_eq_true, beq_iff_eq] at h
  exact (h.resolve_left hkey).1

/-- The declaration for an export assignment exports its binding, or a value
    under a key that has passed the test. -/
theorem exportAt?_declaration {env : Surroundings} {done done' rest : List Node}
    {stmt declaration : Node} {s s' : PassState}
    (hassignment : stmt.exportAssignment? = some (key, binding))
    (h : Pass.exportAt? env done stmt rest s = .ok (some (done', declaration), s')) :
    declaration = exportBinding key binding ∨ ∃ value, declaration = exportValue key value ∧
      (key ≠ defaultKey → key.isIdentifier = true) := by
  obtain ⟨hnone, -⟩ | ⟨key', binding', _, _, hassignment', heq, hexported⟩ := Pass.exportAt?_cases h
  · cases hnone
  cases hassignment.symm.trans hassignment'
  cases heq
  cases hexported with
  | bound => exact .inl rfl
  | moved hmoves => exact .inr ⟨_, rfl, isIdentifier_of_canDeclare hmoves.declarable⟩

/-! ## Display names -/

/-- The new names that a pass starts with are those that display names say and
    that pass the test. -/
theorem isIdentifier_of_mem_start {env : Surroundings} {program : Node} {body : List Node}
    {entry : Text × Text} (h : entry ∈ (Pass.start env program body).renames.entries) :
    entry ∈ body.filterMap displayName? ∧ entry.2.isIdentifier = true := by
  unfold Pass.start at h
  dsimp only at h
  split at h
  · revert entry
    refine List.foldlRecOn (motive := fun s : PassState => ∀ {entry}, entry ∈ s.renames.entries →
      entry ∈ body.filterMap displayName? ∧ entry.2.isIdentifier = true) _ _ (fun h => by cases h)
        fun s hs said hsaid => ?_
    intro entry h
    unfold Pass.applyDisplayName at h
    split at h
    · rename_i hgiven
      simp only [Bool.and_eq_true] at hgiven
      rcases Renaming.mem_add h with h | rfl
      · exact hs h
      · exact ⟨hsaid, hgiven.1.2⟩
    · exact hs h
  · cases h

/-! ## All of them -/

/-- An identifier that is written for a string has its name, and the string has
    passed the test. -/
theorem Unquotes.isIdentifier (h : Unquotes key (identifier name)) :
    name = key ∧ key.isIdentifier = true := by
  cases h with
  | assigned he hkey hm hn =>
    exact memberKey_eq_identifier hkey
      (Option.some.inj ((assignedMember?_keyNode he hm).symm.trans hn))
  | described hobject hparts hkeyNode hkey hms hm hn =>
    have hmember := describedMethods?_keyNode hobject hparts hkeyNode hms _ hm
    exact memberKey_eq_identifier hkey (Option.some.inj (hmember.symm.trans hn))
  | defined he hkey h => exact isIdentifier_of_definedProperty he hkey h
  | declared hassignment h =>
    obtain hbinding | ⟨value, hvalue, hkey⟩ := exportAt?_declaration hassignment h
    · exact absurd hbinding.symm exportBinding_ne_declared
    · obtain ⟨hne, hname⟩ := exportValue_eq_declared hvalue.symm
      exact ⟨identifier.inj hname, hkey hne⟩
  | exported hassignment h =>
    obtain hbinding | ⟨value, hvalue, -⟩ := exportAt?_declaration hassignment h
    · exact exportBinding_eq_exported hbinding.symm
    · exact absurd hvalue.symm exportValue_ne_exported
  | renamed hget hrename =>
    have hname := identifier.inj (Option.some.inj hrename)
    rw [Renaming.apply, hget] at hname
    exact ⟨hname.symm, (isIdentifier_of_mem_start (Table.mem_of_get? hget)).2⟩

/-! ## Attributes -/

/-- A named attribute comes from a pair with that name. -/
theorem entryAttribute_eq_named (h : e.entryAttribute = .ok (.named key value)) :
    e.attributeName? = some key ∧ ∃ keyNode shorthand,
      e = entry keyNode value .init false shorthand false := by
  unfold entryAttribute at h
  split at h
  · cases h
  · split at h
    · rename_i hname
      cases h
      obtain ⟨_, _, _, heq, -⟩ := attributeName?_eq_some hname
      cases heq
      exact ⟨hname, _, _, rfl⟩
    · cases h
  · cases h

/-- The name of an attribute can be written in a tag. -/
theorem isAttributeName_of_attributeName? (h : e.attributeName? = some key) :
    key.isAttributeName = true := by
  unfold attributeName? at h
  split at h
  · exact (Option.filter_eq_some_iff.1 h).2
  · cases h

/-- A named attribute comes from an entry of an object in the props. -/
theorem exists_entry_of_mem_attributes {attrs : List Attribute} (h : n.attributes = .ok attrs)
    (ha : .named key value ∈ attrs) : ∃ e ∈ n.walk, e.entryAttribute = .ok (.named key value) := by
  obtain ⟨e, he, hea | hea⟩ := mem_attributes_cases h ha
  · exact ⟨e, he, hea⟩
  · cases hea

/-! ## In print -/

/-- Wherever an identifier stands that has passed, its name is written. -/
theorem exists_place_identifier {t : Text} {path : Path} (hkey : key.isIdentifier = true)
    (ht : n.print = .ok t) (h : n.at? path = some (identifier key)) (hhides : ¬n.Hides path) :
    ∃ place, n.Places path place ∧ place.whole = t ∧ place.token = key := by
  have hprint : (identifier key).print = .ok key := by rw [print]
  obtain ⟨place, hplace, htext⟩ := (reveals_of_not_hides ht h hhides).exists_place hprint
  refine ⟨place, hplace, hplace.whole_eq ht, ?_⟩
  obtain ⟨c, rest, hdrop, -, hparts⟩ := Text.isNamePart_of_isIdentifier hkey
  rw [Occurrence.token, htext]
  refine Text.nest_of_dropFinalNewline (fun hmem => ?_) place.depth
  rw [hdrop] at hmem
  exact absurd (hparts _ hmem) (by decide)

/-- The name of an attribute is written as it is, and `=` after it. -/
theorem print_named {t : Text} (h : (Attribute.named key value).toNode.print = .ok t) :
    ∃ rest, t = Text.concat [key, "=", rest] := by
  have hcontainer {u : Text} (h : (namedAttribute key (some (container value))).print = .ok u) :
      ∃ rest, u = Text.concat [key, "=", rest] := by
    rw [print] at h
    obtain ⟨v, -, h⟩ := bind_eq_ok.1 h
    cases h
    exact ⟨Text.concat ["\x7b", v, "\x7d"], by simp [Text.concat, Text.ofString]⟩
  unfold Attribute.toNode attributeValue at h
  dsimp only at h
  split at h
  · rename_i text _
    split at h
    · rw [print] at h
      cases h
      exact ⟨Text.concat ["\"", text.escapeAttribute, "\""], by simp [Text.concat, Text.ofString]⟩
    · exact hcontainer h
  · exact hcontainer h

end Node

/-- The names in a factory of a class `Dog`. -/
def dogNames : ClassNames :=
  ⟨"Dog", "Dog", "_proto"⟩

/-- Whatever passes the test is written as the name of a method. -/
theorem unquotes_methodAssigned {key : Text} (h : key.isIdentifier = true) :
    Node.Unquotes key (.identifier key) := by
  have hkey : memberKey (.literal (.string key) none) true = (.identifier key, false) := by
    rw [memberKey_of_stringValue rfl, stringKey, if_pos h]
  have hmember : dogNames.assignedMember? (methodAssigned "_proto" key) =
      .ok (some (.method (.identifier key)
        (.functionExpr none [] (.block [.returnStmt (some (.identifier "z"))]) false false)
        .method false false)) := by
    rw [methodAssigned, ClassNames.assignedMember?]
    simp only [ungroup]
    rw [hkey]
    rfl
  exact .assigned rfl rfl hmember rfl

/-- What is written for a string that has passed a test is one token, the string
    itself, if and only if the string is clean: it does not end with a line
    feed, and no code point of it is a numeral or a letter that may not stand in
    an identifier. The name of an attribute has to keep to the use of `:` in
    markup too. -/
theorem names_unquoted_iff (key : Text) :
    (key.isIdentifier = true →
      Node.Unquotes key (.identifier key) ∧ (∃ c ∈ key.head?, c.isNameStart = true) ∧
        (key.isNameToken = true ↔ key.isClean = true)) ∧
      (key.isAttributeName = true →
        ((∀ c ∈ key, c.isWhiteSpace = false) ↔ key.getLast? ≠ some (CodePoint.ofChar '\n'))) ∧
      (∀ name, Node.Unquotes key (.identifier name) →
        name = key ∧ (key.isNameToken = true ↔ key.isClean = true) ∧
          ∀ (n : Node) t path, n.print = .ok t → n.at? path = some (.identifier name) →
            ¬n.Hides path → ∃ place, n.Places path place ∧ place.whole = t ∧ place.token = key) ∧
      ∀ (props value : Node) attrs, props.attributes = .ok attrs → .named key value ∈ attrs →
        (∃ keyNode shorthand, .entry keyNode value .init false shorthand false ∈ props.walk ∧
          keyNode.keyName? = some key) ∧
        (∀ t, (Attribute.named key value).toNode.print = .ok t →
          ∃ rest, t = Text.concat [key, "=", rest]) ∧
        (key.isAttributeToken = true ↔
          key.isClean = true ∧ (Text.splitOn ':' key).length ≤ 2 ∧
            ∀ piece ∈ (Text.splitOn ':' key).tail, piece.startsIdentifier = true) := by
  refine ⟨fun hkey => ⟨unquotes_methodAssigned hkey, ?_, Text.isNameToken_iff hkey⟩,
    Text.isWhiteSpace_iff, fun name hname => ?_, fun props value attrs h ha => ?_⟩
  · obtain ⟨c, rest, hdrop, hc, -⟩ := Text.isNamePart_of_isIdentifier hkey
    obtain ⟨rest', rfl⟩ := Text.eq_cons_of_dropFinalNewline hdrop
    exact ⟨c, rfl, hc⟩
  · obtain ⟨rfl, hkey⟩ := hname.isIdentifier
    exact ⟨rfl, Text.isNameToken_iff hkey,
      fun _ _ _ ht h hhides => exists_place_identifier hkey ht h hhides⟩
  · obtain ⟨e, he, hea⟩ := exists_entry_of_mem_attributes h ha
    obtain ⟨hattribute, keyNode, shorthand, rfl⟩ := entryAttribute_eq_named hea
    obtain ⟨_, _, _, heq, hkeyName⟩ := attributeName?_eq_some hattribute
    cases heq
    exact ⟨⟨keyNode, shorthand, he, hkeyName⟩, fun t => print_named,
      Text.isAttributeToken_iff (isAttributeName_of_attributeName? hattribute)⟩

/-- `this.greet;` -/
def thisGreet : Node :=
  .program [.exprStmt (.member .thisExpr (.identifier "greet") false false)]

/-- Props with the key `data-id`. -/
def idProps : Node :=
  .object [.entry (.literal (.string "data-id") none) (.identifier "x") .init false false false]

/-- A key of a method and a key of props that are written as names. -/
theorem names_unquoted_greet :
    Node.Unquotes "greet" (.identifier "greet") ∧ Text.isNameToken "greet" = true ∧
      (∃ place,
        thisGreet.Places [.field "body", .index 0, .field "expression", .field "property"] place ∧
          place.whole = "this.greet;" ∧ place.token = "greet") ∧
      idProps.attributes = .ok [.named "data-id" (.identifier "x")] ∧
      Text.isAttributeToken "data-id" = true := by
  have hhides : ¬thisGreet.Hides [.field "body", .index 0, .field "expression",
      .field "property"] := by
    rw [thisGreet]
    iterate 3
      refine not_hides_of_hops (fun _ h => by cases h) (fun _ h => by cases h) ?_
      simp [hops, fields, holeSteps]
    rintro p c (⟨rfl, rfl⟩ | ⟨rfl, rfl⟩) rest hrest
    · simp at hrest
    · obtain rfl : rest = [] := by simpa using hrest
      exact not_hides_nil _
  have hprint : thisGreet.print = .ok "this.greet;" := by decide +kernel
  obtain ⟨hidentifier, -, hwritten, -⟩ := names_unquoted_iff "greet"
  obtain ⟨hunquotes, -, -⟩ := hidentifier (by decide +kernel)
  obtain ⟨-, htoken, hplace⟩ := hwritten _ hunquotes
  obtain ⟨-, -, -, hattribute⟩ := names_unquoted_iff "data-id"
  obtain ⟨-, -, hattributeToken⟩ := hattribute idProps (.identifier "x") _ rfl List.mem_cons_self
  exact ⟨hunquotes, htoken.2 (by decide +kernel), hplace thisGreet _ _ hprint rfl hhides, rfl,
    hattributeToken.2 (by decide +kernel)⟩

/-- A line feed at the end, or a superscript, passes the tests, and what is
    written is no token. -/
theorem line_feed_unquoted :
    (Text.isIdentifier "a\n" = true ∧ Text.isAttributeName "a\n" = true ∧
      Node.Unquotes "a\n" (.identifier "a\n") ∧ Text.isNameToken "a\n" = false ∧
      ∃ c ∈ Text.ofString "a\n", c.isWhiteSpace = true) ∧
    Text.isIdentifier "a\u00B2" = true ∧ Node.Unquotes "a\u00B2" (.identifier "a\u00B2") ∧
      Text.isNameToken "a\u00B2" = false := by
  have hfeed : Text.isIdentifier "a\n" = true := by decide +kernel
  have hsuperscript : Text.isIdentifier "a\u00B2" = true := by decide +kernel
  exact ⟨⟨hfeed, by decide +kernel, unquotes_methodAssigned hfeed,
    by decide +kernel, '\n', by decide +kernel, by decide +kernel⟩, hsuperscript,
    unquotes_methodAssigned hsuperscript, by decide +kernel⟩

end Resugar
