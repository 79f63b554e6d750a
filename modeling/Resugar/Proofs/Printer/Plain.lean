import Resugar.Printer.Print
import Resugar.Proofs.Grammar.Expression
import Resugar.Tree.Edit

/-!
# Plain expressions

The expressions that the grammar derives, as trees: `Node.IsPlain` says which,
and `Node.ungrouped` erases the groups, as a tree holds them only where the
source had them. A plain expression has a precedence, and the precedence says
what nonterminal it is derived from when it is printed bare
(`Node.IsPlain.rank`): the tables of the printer agree with the grammar.
-/

namespace Resugar

/-- The binary operators. -/
def binaryOperators : List String :=
  ["**", "*", "/", "%", "+", "-", "<<", ">>", ">>>", "<", "<=", ">", ">=", "instanceof", "in",
    "==", "!=", "===", "!==",
    "&", "^", "|"]

/-- The logical operators. -/
def logicalOperators : List String :=
  ["&&", "||", "??"]

namespace Node

/-- What a value can be assigned to. -/
def isTarget : Node → Bool
  | identifier .. => true
  | member .. => true
  | _ => false

/-- The expressions of names, `this`, operators, calls, members and groups. -/
inductive IsPlain : Node → Prop where
  | name {x : Text} : x.isPlainName = true → x.isReserved = false → IsPlain (identifier x)
  | this : IsPlain thisExpr
  | group {e : Node} : IsPlain e → IsPlain (parenthesized e)
  | property {r : Node} {x : Text} :
    IsPlain r → x.isPlainName = true → IsPlain (member r (identifier x) false false)
  | index {r p : Node} : IsPlain r → IsPlain p → IsPlain (member r p true false)
  | call {c : Node} {as : List Node} {isOptional : Bool} :
    IsPlain c → (∀ a ∈ as, IsPlain a) → IsPlain (call c as isOptional)
  | newExpr {c : Node} {as : List Node} : IsPlain c → (∀ a ∈ as, IsPlain a) → IsPlain (newExpr c as)
  | update {op : String} {e : Node} {leading : Bool} :
    op ∈ updateOperators → e.isTarget = true → IsPlain e → IsPlain (update op e leading)
  | unary {op : String} {e : Node} : op ∈ unaryOperators → IsPlain e → IsPlain (unary op e)
  | binary {op : String} {l r : Node} :
    op ∈ binaryOperators → IsPlain l → IsPlain r → IsPlain (binary op l r)
  | logical {op : String} {l r : Node} :
    op ∈ logicalOperators → IsPlain l → IsPlain r → IsPlain (logical op l r)
  | conditional {t c a : Node} : IsPlain t → IsPlain c → IsPlain a → IsPlain (conditional t c a)
  | assignment {op : String} {l r : Node} :
    op ∈ assignmentOperators → l.isTarget = true → IsPlain l → IsPlain r →
      IsPlain (assignment op l r)
  | sequence {es : List Node} : 2 ≤ es.length → (∀ e ∈ es, IsPlain e) → IsPlain (sequence es)

/-! ## Trees without groups -/

/-- What stands in a group. -/
def grouped? : Node → Option Node
  | parenthesized e => some e
  | _ => none

/-- A tree without its groups. -/
def ungrouped (n : Node) : Node :=
  n.replaceAll (fun _ => grouped?) false

section Ungrouped

variable (op x : Text) (e l r c p t a : Node) (as es : List Node) (isOptional leading : Bool)

@[simp] theorem ungrouped_identifier : (identifier x).ungrouped = identifier x := rfl
@[simp] theorem ungrouped_thisExpr : thisExpr.ungrouped = thisExpr := rfl
@[simp] theorem ungrouped_parenthesized : (parenthesized e).ungrouped = e.ungrouped := rfl

@[simp] theorem ungrouped_property :
    (member r p false isOptional).ungrouped = member r.ungrouped p false isOptional := rfl

@[simp] theorem ungrouped_index :
    (member r p true isOptional).ungrouped = member r.ungrouped p.ungrouped true isOptional := rfl

@[simp] theorem ungrouped_call :
    (call c as isOptional).ungrouped = call c.ungrouped (as.map ungrouped) isOptional := by
  rw [ungrouped, replaceAll_eq]
  exact congrArg (call c.ungrouped · isOptional) (Slot.nodes_map_some ungrouped as)

@[simp] theorem ungrouped_newExpr :
    (newExpr c as).ungrouped = newExpr c.ungrouped (as.map ungrouped) := by
  rw [ungrouped, replaceAll_eq]
  exact congrArg (newExpr c.ungrouped) (Slot.nodes_map_some ungrouped as)

@[simp] theorem ungrouped_update :
    (update op e leading).ungrouped = update op e.ungrouped leading := rfl
@[simp] theorem ungrouped_unary : (unary op e).ungrouped = unary op e.ungrouped := rfl
@[simp] theorem ungrouped_binary :
    (binary op l r).ungrouped = binary op l.ungrouped r.ungrouped := rfl
@[simp] theorem ungrouped_logical :
    (logical op l r).ungrouped = logical op l.ungrouped r.ungrouped := rfl
@[simp] theorem ungrouped_assignment :
    (assignment op l r).ungrouped = assignment op l.ungrouped r.ungrouped := rfl

@[simp] theorem ungrouped_conditional :
    (conditional t c a).ungrouped = conditional t.ungrouped c.ungrouped a.ungrouped := rfl

@[simp] theorem ungrouped_sequence : (sequence es).ungrouped = sequence (es.map ungrouped) := by
  rw [ungrouped, replaceAll_eq]
  exact congrArg sequence (Slot.nodes_map_some ungrouped es)

end Ungrouped

/-! ## Precedence -/

/-- What members and calls of an expression are taken of, printed bare. -/
def chain : Node → Nonterminal
  | member r _ _ _ => chain r
  | call c _ isOptional => if isOptional ∨ chain c = .optionalChain then .optionalChain else .call
  | _ => .member

/-- The nonterminal of the expressions with a given precedence. -/
def level : Nat → Nonterminal
  | 3 => .assignment
  | 4 => .conditional
  | 5 => .coalesce
  | 6 => .logicalOr
  | 7 => .logicalAnd
  | 8 => .bitwiseOr
  | 9 => .bitwiseXor
  | 10 => .bitwiseAnd
  | 11 => .equality
  | 12 => .relational
  | 13 => .shift
  | 14 => .additive
  | 15 => .multiplicative
  | 16 => .exponentiation
  | 17 => .unary
  | 18 => .update
  | 19 => .leftHandSide
  | 20 => .leftHandSide
  | _ => .expression

/-- The nonterminal that an expression, printed bare, is derived from. -/
def nonterminal : Node → Nonterminal
  | update .. => .update
  | unary .. => .unary
  | binary op _ _ => level ((operatorPrecedence? op).getD 0)
  | logical op _ _ => level ((operatorPrecedence? op).getD 0)
  | conditional .. => .conditional
  | assignment .. => .assignment
  | sequence .. => .expression
  | member r _ _ _ => chain r
  | call c as isOptional => chain (call c as isOptional)
  | newExpr .. => .member
  | _ => .primary

theorem chain_mem (e : Node) : e.chain ∈ Nonterminal.chains := by
  fun_induction chain e with
  | case1 r _ _ _ ih => exact ih
  | case2 => decide
  | case3 => decide
  | case4 => decide

theorem chain_passes (e : Node) : e.chain.Passes .leftHandSide := by
  have h := e.chain_mem
  generalize e.chain = A at h
  revert A
  have hall : ∀ A ∈ Nonterminal.chains, Nonterminal.isMet .leftHandSide 3 A = true := by decide
  exact fun A hA => Nonterminal.passes_of_isMet (hall A hA)

/-- What the printer needs to know of an expression of precedence `p`. -/
structure Rank (e : Node) (p : Nat) : Prop where
  precedence : e.precedence = .ok p
  passes : e.nonterminal.Passes (level p)
  bounds : p = 1 ∨ 3 ≤ p ∧ p ≤ 20
  isInfix : e.isInfix = decide (3 ≤ p ∧ p ≤ 16)
  isConditional : e.isConditional = decide (p = 4)
  isUnary : e.isUnary = decide (p = 17)
  mixesNullish : ∀ op : Text,
    e.mixesNullish op = (decide (5 ≤ p ∧ p ≤ 7) && ((op == Text.ofString "??") != decide (p = 5)))

/-- Binary operators bind more tightly than logical ones, less than unary. -/
theorem binary_precedence {op : String} (h : op ∈ binaryOperators) :
    ∃ p, operatorPrecedence? op = some p ∧ 8 ≤ p ∧ p ≤ 16 := by
  have hall : ∀ op ∈ binaryOperators,
      ((operatorPrecedence? op).any fun p => 8 ≤ p && p ≤ 16) = true := by
    decide
  have := hall op h
  cases hp : operatorPrecedence? op with
  | none => rw [hp] at this; cases this
  | some p =>
    rw [hp] at this
    simpa using this

/-- The precedences of logical operators, of which `??` has one of its own. -/
theorem logical_precedence {op : String} (h : op ∈ logicalOperators) :
    ∃ p, operatorPrecedence? op = some p ∧ 5 ≤ p ∧ p ≤ 7 ∧
      (p = 5 ↔ Text.ofString op = Text.ofString "??") := by
  simp only [logicalOperators, List.mem_cons, List.not_mem_nil, or_false] at h
  rcases h with rfl | rfl | rfl
  · exact ⟨7, rfl, by decide⟩
  · exact ⟨6, rfl, by decide⟩
  · exact ⟨5, rfl, by decide⟩

/-- A binary expression has the precedence of its operator. -/
theorem rank_binary {op : String} (h : op ∈ binaryOperators) (l r : Node) :
    ∃ p, Rank (binary op l r) p := by
  obtain ⟨p, hp, hlow, hhigh⟩ := binary_precedence h
  refine ⟨p, ?_, ?_, by omega, ?_, ?_, ?_, fun _ => ?_⟩
  · rw [Node.precedence, hp]
    rfl
  · rw [nonterminal, hp]
    exact .refl _
  · exact (decide_eq_true (by omega)).symm
  · exact (decide_eq_false (by omega)).symm
  · exact (decide_eq_false (by omega)).symm
  · rw [decide_eq_false (by omega), Bool.false_and]
    rfl

/-- So has a logical expression. -/
theorem rank_logical {op : String} (h : op ∈ logicalOperators) (l r : Node) :
    ∃ p, Rank (logical op l r) p := by
  obtain ⟨p, hp, hlow, hhigh, hfive⟩ := logical_precedence h
  refine ⟨p, ?_, ?_, by omega, ?_, ?_, ?_, fun _ => ?_⟩
  · rw [Node.precedence, hp]
  · rw [nonterminal, hp]
    exact .refl _
  · exact (decide_eq_true (by omega)).symm
  · exact (decide_eq_false (by omega)).symm
  · exact (decide_eq_false (by omega)).symm
  · have : decide (p = 5) = (Text.ofString op == Text.ofString "??") := by
      rw [Bool.eq_iff_iff, decide_eq_true_eq, beq_iff_eq]
      exact hfive
    rw [decide_eq_true (by omega : 5 ≤ p ∧ p ≤ 7), Bool.true_and, this, Node.mixesNullish]

/-- A plain expression has a precedence, and is derived from its nonterminal
    when it is printed bare. -/
theorem IsPlain.rank {e : Node} (h : e.IsPlain) : ∃ p, Rank e p := by
  cases h with
  | name | this | group =>
    exact ⟨20, rfl, Nonterminal.passes_of_isMet (k := 3) rfl,
      by decide, rfl, rfl, rfl, fun _ => rfl⟩
  | property | index => exact ⟨20, rfl, chain_passes _, by decide, rfl, rfl, rfl, fun _ => rfl⟩
  | call _ _ => exact ⟨19, rfl, chain_passes _, by decide, rfl, rfl, rfl, fun _ => rfl⟩
  | newExpr _ _ =>
    exact ⟨19, rfl, Nonterminal.passes_of_isMet (k := 3) rfl,
      by decide, rfl, rfl, rfl, fun _ => rfl⟩
  | update _ _ _ => exact ⟨18, rfl, .refl _, by decide, rfl, rfl, rfl, fun _ => rfl⟩
  | unary _ _ => exact ⟨17, rfl, .refl _, by decide, rfl, rfl, rfl, fun _ => rfl⟩
  | binary hop _ _ => exact rank_binary hop _ _
  | logical hop _ _ => exact rank_logical hop _ _
  | conditional _ _ _ => exact ⟨4, rfl, .refl _, by decide, rfl, rfl, rfl, fun _ => rfl⟩
  | assignment _ _ _ _ => exact ⟨3, rfl, .refl _, by decide, rfl, rfl, rfl, fun _ => rfl⟩
  | sequence _ _ => exact ⟨1, rfl, .refl _, by decide, rfl, rfl, rfl, fun _ => rfl⟩

end Node

end Resugar
