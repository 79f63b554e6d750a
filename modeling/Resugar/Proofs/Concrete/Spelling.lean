import Resugar.Markup.Call
import Resugar.Proofs.Concrete.Comments
import Resugar.Proofs.Grammar.Expression
import Resugar.Proofs.Results

/-!
# Expressions as they are spelled

The grammar that cuts source into a concrete tree promises more than the reader
looks at: what names, numbers and strings look like, which operators stand
before an operand, and how many parts a sequence has (`Label.Follows`). An
expression that is read from such a tree is of one of the forms of
`Node.Spelled`: its literals have the spelling of the source, and no name holds
a quote.
-/

namespace Resugar

open List

/-! ## What a grammar promises -/

/-- The kinds of names. -/
def nameKinds : List String :=
  ["identifier", "property_identifier", "shorthand_property_identifier",
    "shorthand_property_identifier_pattern",
    "private_property_identifier", "statement_identifier"]

/-- What a grammar promises about a node and its children: a name holds no
    quotes, a number begins with a digit or a point, a string stands in quotes,
    an operator before its operand is one of the language, a property is a name,
    and a sequence has at least two parts. -/
structure Label.Follows (src : Source) (l : Label) (children : List Label) : Prop where
  name : l.kind ∈ nameKinds → ∀ t, l.text src = .ok t → t.any Text.isQuote = false
  number : l.kind = "number" → ∀ t, l.text src = .ok t →
    ∃ c ∈ t.head?, c.isAsciiDigit = true ∨ c = CodePoint.ofChar '.'
  string : l.kind = "string" → ∀ t, l.text src = .ok t →
    ∃ q body, Text.isQuote q = true ∧ t = q :: (body ++ [q])
  operator : l.kind = "unary_expression" → ∀ c ∈ children, c.field = some "operator" →
    ∀ t, c.text src = .ok t → ∃ op ∈ unaryOperators, t = Text.ofString op
  property : l.kind = "member_expression" → ∀ c ∈ children, c.field = some "property" →
    ∀ t, c.text src = .ok t → t.any Text.isQuote = false
  sequence : l.kind = "sequence_expression" →
    2 ≤ (children.filter fun c => c.isNamed && !c.isExtra).length

/-- A tree that follows the grammar at every node. -/
inductive Concrete.Lexed (src : Source) : Concrete → Prop
  | node {label : Label} {children : List Concrete}
    (h : label.Follows src (children.map Concrete.label))
    (hchildren : ∀ c ∈ children, Lexed src c) : Lexed src (.node label children)

/-! ## What is read -/

namespace Node

/-- Expressions that are put together from others, with marks between them. -/
def isComposite : Node → Bool
  | template .. => true
  | array .. => true
  | object .. => true
  | binary .. => true
  | logical .. => true
  | assignment .. => true
  | conditional .. => true
  | call .. => true
  | newExpr .. => true
  | awaitExpr .. => true
  | functionExpr .. => true
  | arrow .. => true
  | classExpr .. => true
  | objectPattern .. => true
  | arrayPattern .. => true
  | _ => false

/-- The expressions that a tree can mean. -/
inductive Spelled : Node → Prop
  | name {x : Text} (h : x.any Text.isQuote = false) : Spelled (identifier x)
  | string {q : CodePoint} {body value : Text} (hq : Text.isQuote q = true)
    (hvalue : StringLiteral.value (q :: (body ++ [q])) = .ok value) :
    Spelled (literal (.string value) (some (q :: (body ++ [q]))))
  | number {n : Number} {spelling : Text}
    (h : ∃ c ∈ spelling.head?, c.isAsciiDigit = true ∨ c = CodePoint.ofChar '.') :
    Spelled (literal (.number n) (some spelling))
  | word {value : Value} {word : String} (hword : word ∈ ["true", "false", "null"])
    (hvalue : ∀ t, value ≠ .string t) : Spelled (literal value (some (Text.ofString word)))
  | this : Spelled thisExpr
  | super : Spelled superExpr
  | raw (text : Text) : Spelled (raw text)
  | property {receiver : Node} {x : Text} (isOptional : Bool) (hreceiver : Spelled receiver)
    (hx : x.any Text.isQuote = false) : Spelled (member receiver (identifier x) false isOptional)
  | index (receiver property : Node) (isOptional : Bool) :
    Spelled (member receiver property true isOptional)
  | unary {op : String} (h : op ∈ unaryOperators) (argument : Node) : Spelled (unary op argument)
  | update (operator : Text) (argument : Node) (leading : Bool) :
    Spelled (update operator argument leading)
  | tagged (tag : Node) (quasis : List Text) (expressions : List Node) :
    Spelled (taggedTemplate tag (template quasis expressions))
  | sequence {expressions : List Node} (h : 2 ≤ expressions.length) : Spelled (sequence expressions)
  | group {e : Node} (h : Spelled e) : Spelled (parenthesized e)
  | spread (argument : Node) : Spelled (spread argument)
  | yield (argument : Option Node) (delegate : Bool) : Spelled (yieldExpr argument delegate)
  | composite {n : Node} (h : n.isComposite = true) : Spelled n

end Node

/-- The meaning of a reading as an expression can be spelled, and that of a
    template is a template. -/
def Reading.Spells (r : Reading) : Prop :=
  AllOk (fun n => n.Spelled ∧
    (r.kind = "template_string" → ∃ quasis expressions, n = .template quasis expressions))
    r.expression

namespace Site

variable {src : Source} {s : Site}

theorem first_mem {r : Reading} (h : s.first = .ok r) : r ∈ s.children := by
  unfold first at h
  split at h
  · rename_i hnamed
    cases h
    exact mem_of_mem_filter (show _ ∈ s.named from hnamed ▸ mem_cons_self)
  · cases h

/-- A required field is that of a child. -/
theorem required_mem {name : String} {r : Reading} (h : s.required src name = .ok r) :
    r ∈ s.children ∧ r.label.field = some name := by
  unfold required at h
  split at h
  · rename_i hfield
    cases h
    have hname := find?_some hfield
    exact ⟨mem_of_find?_eq_some hfield, eq_of_beq hname⟩
  · cases h

theorem expression_of_template (hkind : s.label.kind = "template_string") :
    s.expression src = s.template src := by
  rw [expression, hkind]
  rfl

/-- A template means a template. -/
theorem template_isTemplate :
    AllOk (fun n => ∃ quasis expressions, n = .template quasis expressions) (s.template src) :=
  allOk_bind fun p _ => allOk_ok ⟨p.1, p.2, rfl⟩

/-- The parts of a sequence are at least as many as its children. -/
theorem length_sequenceParts {rs : List Reading} {parts : List (List Node)}
    (hrs : ∀ r ∈ rs, r.Spells) (h : rs.mapM Reading.sequencePart = .ok parts) :
    rs.length ≤ parts.flatten.length := by
  have hparts := forall₂_of_mapM h
  clear h
  induction hparts with
  | nil => exact Nat.le_refl _
  | @cons r part rs parts hpart _ ih =>
    obtain ⟨hr, hrs⟩ := forall_mem_cons.1 hrs
    have hone : 1 ≤ part.length := by
      obtain ⟨n, hn, hpart⟩ := bind_eq_ok.1 hpart
      split at hpart
      · cases hpart
        cases (hr _ hn).1 with
        | sequence h => exact Nat.le_of_succ_le h
        | composite h => cases h
      · cases hpart
        exact Nat.le_refl _
    rw [flatten_cons, length_cons, length_append, Nat.add_comm]
    exact Nat.add_le_add hone (ih hrs)

theorem call_spelled (hchildren : ∀ r ∈ s.children, r.Spells) :
    AllOk Node.Spelled (s.call src) := by
  refine allOk_bind fun callee _ => allOk_bind fun c _ => allOk_bind fun arguments harguments => ?_
  split
  · rename_i hkind
    refine allOk_bind fun quasi hquasi => allOk_ok ?_
    obtain ⟨quasis, expressions, rfl⟩ :=
      (hchildren arguments (required_mem harguments).1 quasi hquasi).2 (eq_of_beq hkind)
    exact .tagged ..
  · exact allOk_bind fun _ _ => allOk_ok (.composite rfl)

theorem arrow_isComposite : AllOk (fun n => n.isComposite = true) (s.arrow src) := by
  unfold arrow
  dsimp only
  split
  · refine allOk_bind fun _ _ => allOk_bind fun _ _ => allOk_bind fun _ _ => ?_
    split <;> exact allOk_bind fun _ _ => allOk_ok rfl
  · refine allOk_bind fun _ _ => allOk_bind fun _ _ => allOk_bind fun _ _ => ?_
    split <;> exact allOk_bind fun _ _ => allOk_ok rfl

/-- What a node means as an expression can be spelled, if it follows the grammar
    and its children do so. -/
theorem expression_spelled (hf : s.label.Follows src (s.children.map Reading.label))
    (hchildren : ∀ r ∈ s.children, r.Spells) : AllOk Node.Spelled (s.expression src) := by
  have hname (hkind : s.label.kind ∈ nameKinds) : AllOk Node.Spelled
      (do return .identifier (← s.text src)) :=
    allOk_bind fun t ht => allOk_ok (.name (hf.name hkind t ht))
  have hfirst : AllOk Node.Spelled s.firstExpression :=
    allOk_bind fun r hr n hn => (hchildren r (first_mem hr) n hn).1
  have hcomposite : ∀ m : Node, m.isComposite = true → AllOk Node.Spelled (.ok m) :=
    fun m hm => allOk_ok (.composite hm)
  -- one case for each kind of node, in the order of the reader
  unfold expression
  split
  iterate 6
    · rename_i hkind
      exact hname (by rw [hkind]; decide)
  iterate 2
    · exact allOk_ok (.name rfl)
  · exact allOk_ok .this
  · exact allOk_ok .super
  iterate 3
    · exact allOk_ok (.word (by decide) fun _ h => by cases h)
  · -- a number
    rename_i hkind
    exact allOk_bind fun t ht => allOk_ok (.number (hf.number hkind t ht))
  · -- a string
    rename_i hkind
    refine allOk_bind fun t ht => allOk_bind fun value hvalue => allOk_ok ?_
    obtain ⟨q, body, hq, rfl⟩ := hf.string hkind t ht
    exact .string hq hvalue
  · intro n hn
    obtain ⟨quasis, expressions, rfl⟩ := template_isTemplate n hn
    exact .composite rfl
  iterate 2
    · exact allOk_bind fun _ _ => hcomposite _ rfl
  · exact allOk_bind fun e he => allOk_ok (.group (hfirst e he))
  · -- a sequence
    rename_i hkind
    refine allOk_bind fun parts hparts => allOk_ok (.sequence ?_)
    have hnamed : ∀ r ∈ s.named, r.Spells := fun r hr => hchildren r (mem_of_mem_filter hr)
    have htwo := hf.sequence hkind
    rw [filter_map, length_map] at htwo
    exact Nat.le_trans htwo (length_sequenceParts hnamed hparts)
  · exact call_spelled hchildren
  · refine allOk_bind fun _ _ => allOk_bind fun _ _ => ?_
    dsimp only
    split <;> exact allOk_bind fun _ _ => hcomposite _ rfl
  · -- a member with a name
    rename_i hkind
    refine allOk_bind fun r hr => allOk_bind fun receiver hreceiver => allOk_bind fun p hp =>
      allOk_bind fun property hproperty => allOk_ok ?_
    obtain ⟨hp, hfield⟩ := required_mem hp
    obtain ⟨x, hx, hproperty⟩ := bind_eq_ok.1 hproperty
    cases hproperty
    exact .property _ (hchildren r (required_mem hr).1 receiver hreceiver).1
      (hf.property hkind p.label (mem_map_of_mem hp) hfield x hx)
  · iterate 4 refine allOk_bind fun _ _ => ?_
    exact allOk_ok (.index ..)
  · iterate 4 refine allOk_bind fun _ _ => ?_
    exact hcomposite _ rfl
  · iterate 6 refine allOk_bind fun _ _ => ?_
    exact hcomposite _ rfl
  · iterate 6 refine allOk_bind fun _ _ => ?_
    refine allOk_ok ?_
    split <;> exact .composite rfl
  · -- an operator before its operand
    rename_i hkind
    refine allOk_bind fun r hr => allOk_bind fun operator hoperator =>
      allOk_bind fun _ _ => allOk_bind fun _ _ =>
      allOk_ok ?_
    obtain ⟨hr, hfield⟩ := required_mem hr
    obtain ⟨op, hop, rfl⟩ :=
      hf.operator hkind r.label (mem_map_of_mem hr) hfield operator hoperator
    exact .unary hop _
  · iterate 4 refine allOk_bind fun _ _ => ?_
    exact allOk_ok (.update ..)
  · iterate 6 refine allOk_bind fun _ _ => ?_
    exact hcomposite _ rfl
  iterate 3
    · exact allOk_bind fun _ _ => hcomposite _ rfl
  · exact fun n hn => .composite (arrow_isComposite n hn)
  iterate 2
    · exact allOk_bind fun _ _ => hcomposite _ rfl
  · exact allOk_bind fun _ _ => allOk_ok (.yield ..)
  · exact allOk_bind fun _ _ => allOk_ok (.spread _)
  iterate 2
    · rename_i hkind
      rw [expression.pattern, patternOnly?, hkind]
      exact allOk_bind fun _ _ => hcomposite _ rfl
  · exact allOk_bind fun _ _ => allOk_ok (.raw _)

end Site

theorem Concrete.label_read (src : Source) (c : Concrete) : (c.read src).label = c.label := by
  cases c
  rfl

/-- What a tree means as an expression can be spelled. -/
theorem Concrete.Lexed.spells {src : Source} {c : Concrete} (h : c.Lexed src) :
    (c.read src).Spells := by
  induction h with
  | @node label children hf _ ih =>
    rw [read, readAll_eq]
    intro n hn
    have hlabels : (children.map (read src)).map Reading.label = children.map Concrete.label := by
      rw [map_map]
      exact map_congr_left fun c _ => label_read src c
    have hchildren : ∀ r ∈ children.map (read src), r.Spells := by
      intro r hr
      obtain ⟨c, hc, rfl⟩ := mem_map.1 hr
      exact ih c hc
    refine ⟨Site.expression_spelled (hlabels.symm ▸ hf) hchildren n hn, fun hkind => ?_⟩
    exact Site.template_isTemplate n ((Site.expression_of_template hkind).symm.trans hn)

end Resugar
