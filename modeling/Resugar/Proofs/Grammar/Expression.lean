import Resugar.Proofs.Grammar.Lexeme
import Resugar.Tree.Node

/-!
# The grammar of expressions

The grammar that ECMAScript gives for expressions, as far as it is about names,
`this`, operators, calls, members and grouping. `Derives A ls n` says that the
lexemes `ls` can be derived from the nonterminal `A`, and that the tree of the
derivation is `n`; a group of the source is a `Node.parenthesized`. The
productions are those of the standard:

* most nonterminals pass on to a tighter one (`Nonterminal.units`);
* the binary operators group to the left (`Nonterminal.operators`), and `**`
  groups to the right; its left operand is an update expression, so no unary
  operator stands there bare;
* `??` takes operands without `&&` and `||` (`Nonterminal.coalesce`);
* the callee of `new` takes no arguments of its own (`Nonterminal.member`).

Conditions beyond the productions, on the targets of assignments for instance,
are not part of it.
-/

namespace Resugar

/-- The nonterminals of the grammar of expressions. -/
inductive Nonterminal where
  | primary
  | member
  | newOnly
  | call
  | optionalChain
  | leftHandSide
  | update
  | unary
  | exponentiation
  | multiplicative
  | additive
  | shift
  | relational
  | equality
  | bitwiseAnd
  | bitwiseXor
  | bitwiseOr
  | logicalAnd
  | logicalOr
  | coalesceHead
  | coalesce
  | shortCircuit
  | conditional
  | assignment
  | expression
  deriving DecidableEq

namespace Nonterminal

/-- The nonterminals that alone make up another one. -/
def units : Nonterminal → List Nonterminal
  | member => [primary]
  | newOnly => [member]
  | leftHandSide => [newOnly, call, optionalChain]
  | update => [leftHandSide]
  | unary => [update]
  | exponentiation => [unary]
  | multiplicative => [exponentiation]
  | additive => [multiplicative]
  | shift => [additive]
  | relational => [shift]
  | equality => [relational]
  | bitwiseAnd => [equality]
  | bitwiseXor => [bitwiseAnd]
  | bitwiseOr => [bitwiseXor]
  | logicalAnd => [bitwiseOr]
  | logicalOr => [logicalAnd]
  | coalesceHead => [coalesce, bitwiseOr]
  | shortCircuit => [logicalOr, coalesce]
  | conditional => [shortCircuit]
  | assignment => [conditional]
  | expression => [assignment]
  | _ => []

/-- Whether a nonterminal alone makes up another one, through any number of
    nonterminals between them. -/
inductive Passes : Nonterminal → Nonterminal → Prop where
  | refl (A : Nonterminal) : Passes A A
  | step {A B C : Nonterminal} : B ∈ C.units → Passes C A → Passes B A

theorem Passes.trans {A B C : Nonterminal} (h : Passes C B) (h' : Passes B A) : Passes C A := by
  induction h with
  | refl => exact h'
  | step hC _ ih => exact .step hC (ih h')

/-- Whether a nonterminal is met below another one, in at most `k` steps. -/
def isMet : Nonterminal → (k : Nat) → Nonterminal → Bool
  | A, 0, B => A = B
  | A, k + 1, B => A = B || A.units.any fun C => isMet C k B

theorem passes_of_isMet {A B : Nonterminal} {k : Nat} (h : A.isMet k B = true) : Passes B A := by
  induction k generalizing A with
  | zero => exact of_decide_eq_true h ▸ .refl A
  | succ k ih =>
    rw [isMet, Bool.or_eq_true, decide_eq_true_eq, List.any_eq_true] at h
    rcases h with rfl | ⟨C, hC, h⟩
    · exact .refl A
    · exact (ih h).trans (.step hC (.refl A))

/-- The binary operators that group to the left, by nonterminal. -/
def operators : Nonterminal → List String
  | multiplicative => ["*", "/", "%"]
  | additive => ["+", "-"]
  | shift => ["<<", ">>", ">>>"]
  | relational => ["<", ">", "<=", ">=", "instanceof", "in"]
  | equality => ["==", "!=", "===", "!=="]
  | bitwiseAnd => ["&"]
  | bitwiseXor => ["^"]
  | bitwiseOr => ["|"]
  | _ => []

/-- The logical operators but for `??`, by the nonterminal of what they make. -/
def logicalOperators : Nonterminal → List String
  | logicalAnd => ["&&"]
  | logicalOr => ["||"]
  | _ => []

/-- The nonterminals that members and calls can be taken of without end. -/
def chains : List Nonterminal :=
  [member, call, optionalChain]

end Nonterminal

/-- The operators of update expressions. -/
def updateOperators : List String :=
  ["++", "--"]

/-- The operators before an operand. -/
def unaryOperators : List String :=
  ["delete", "void", "typeof", "+", "-", "~", "!"]

/-- The operators that assign. -/
def assignmentOperators : List String :=
  ["=", "*=", "/=", "%=", "+=", "-=", "<<=", ">>=", ">>>=", "&=", "^=", "|=",
    "**=", "&&=", "||=", "??="]

/-- Pieces of lexemes with commas between them. -/
def commas (pieces : List (List Text)) : List Text :=
  List.intercalate [Text.ofString ","] pieces

/-- The lexemes of arguments; a comma may follow the last one. -/
def IsTuple (pieces : List (List Text)) (ls : List Text) : Prop :=
  ls = Text.ofString "(" :: (commas pieces ++ [Text.ofString ")"]) ∨ pieces ≠ [] ∧
    ls = Text.ofString "(" :: (commas pieces ++ [Text.ofString ",", Text.ofString ")"])

open Nonterminal Text in
/-- The derivations of the grammar, with the tree of each. -/
inductive Derives : Nonterminal → List Text → Node → Prop where
  | unit {A B : Nonterminal} {ls : List Text} {n : Node} :
    B ∈ A.units → Derives B ls n → Derives A ls n
  | this : Derives primary [ofString "this"] .thisExpr
  | name {x : Text} :
    x.isPlainName = true → x.isReserved = false → Derives primary [x] (.identifier x)
  | group {ls : List Text} {n : Node} :
    Derives expression ls n → Derives primary
      (ofString "(" :: (ls ++ [ofString ")"])) (.parenthesized n)
  | property {A : Nonterminal} {ls : List Text} {r : Node} {x : Text} :
    A ∈ chains → Derives A ls r → x.isPlainName = true →
      Derives A (ls ++ [ofString ".", x]) (.member r (.identifier x) false false)
  | index {A : Nonterminal} {ls ms : List Text} {r p : Node} :
    A ∈ chains → Derives A ls r → Derives expression ms p →
      Derives A (ls ++ ofString "[" :: (ms ++ [ofString "]"])) (.member r p true false)
  | newArguments {ls ms : List Text} {c : Node} {parts : List (List Text × Node)} :
    Derives member ls c → (∀ p ∈ parts, Derives assignment p.1 p.2) → IsTuple (parts.map (·.1)) ms →
      Derives member (ofString "new" :: (ls ++ ms)) (.newExpr c (parts.map (·.2)))
  | newBare {ls : List Text} {c : Node} :
    Derives newOnly ls c → Derives newOnly (ofString "new" :: ls) (.newExpr c [])
  | callMember {ls ms : List Text} {c : Node} {parts : List (List Text × Node)} :
    Derives member ls c → (∀ p ∈ parts, Derives assignment p.1 p.2) → IsTuple (parts.map (·.1)) ms →
      Derives call (ls ++ ms) (.call c (parts.map (·.2)) false)
  | callAgain {A : Nonterminal} {ls ms : List Text} {c : Node} {parts : List (List Text × Node)} :
    A ∈ [call, optionalChain] → Derives A ls c → (∀ p ∈ parts, Derives assignment p.1 p.2) →
      IsTuple (parts.map (·.1)) ms → Derives A (ls ++ ms) (.call c (parts.map (·.2)) false)
  | optionalCall {A : Nonterminal} {ls ms : List Text} {c : Node}
    {parts : List (List Text × Node)} :
    A ∈ chains → Derives A ls c → (∀ p ∈ parts, Derives assignment p.1 p.2) →
      IsTuple (parts.map (·.1)) ms →
      Derives optionalChain (ls ++ ofString "?." :: ms) (.call c (parts.map (·.2)) true)
  | optionalProperty {A : Nonterminal} {ls : List Text} {r : Node} {x : Text} :
    A ∈ chains → Derives A ls r → x.isPlainName = true →
      Derives optionalChain (ls ++ [ofString "?.", x]) (.member r (.identifier x) false true)
  | optionalIndex {A : Nonterminal} {ls ms : List Text} {r p : Node} :
    A ∈ chains → Derives A ls r → Derives expression ms p →
      Derives optionalChain (ls ++ ofString "?." :: ofString "[" ::
        (ms ++ [ofString "]"])) (.member r p true true)
  | trailing {ls : List Text} {n : Node} {op : String} :
    Derives leftHandSide ls n → op ∈ updateOperators →
      Derives update (ls ++ [ofString op]) (.update op n false)
  | leading {ls : List Text} {n : Node} {op : String} :
    op ∈ updateOperators → Derives unary ls n →
      Derives update (ofString op :: ls) (.update op n true)
  | unary {ls : List Text} {n : Node} {op : String} :
    op ∈ unaryOperators → Derives unary ls n → Derives unary (ofString op :: ls) (.unary op n)
  | power {ls ms : List Text} {l r : Node} :
    Derives update ls l → Derives exponentiation ms r →
      Derives exponentiation (ls ++ ofString "**" :: ms) (.binary "**" l r)
  | binary {A B : Nonterminal} {ls ms : List Text} {l r : Node} {op : String} :
    op ∈ A.operators → B ∈ A.units → Derives A ls l → Derives B ms r →
      Derives A (ls ++ ofString op :: ms) (.binary op l r)
  | logical {A B : Nonterminal} {ls ms : List Text} {l r : Node} {op : String} :
    op ∈ A.logicalOperators → B ∈ A.units → Derives A ls l → Derives B ms r →
      Derives A (ls ++ ofString op :: ms) (.logical op l r)
  | coalesce {ls ms : List Text} {l r : Node} :
    Derives coalesceHead ls l → Derives bitwiseOr ms r →
      Derives coalesce (ls ++ ofString "??" :: ms) (.logical "??" l r)
  | conditional {ls ms ks : List Text} {t c a : Node} :
    Derives shortCircuit ls t → Derives assignment ms c → Derives assignment ks a →
      Derives conditional (ls ++ ofString "?" :: (ms ++ ofString ":" :: ks)) (.conditional t c a)
  | assignment {ls ms : List Text} {l r : Node} {op : String} :
    Derives leftHandSide ls l → op ∈ assignmentOperators → Derives assignment ms r →
      Derives assignment (ls ++ ofString op :: ms) (.assignment op l r)
  | sequence {parts : List (List Text × Node)} :
    2 ≤ parts.length → (∀ p ∈ parts, Derives assignment p.1 p.2) →
      Derives expression (commas (parts.map (·.1))) (.sequence (parts.map (·.2)))

/-- What is derived from a nonterminal is derived from those it makes up. -/
theorem Derives.passes {A B : Nonterminal} {ls : List Text} {n : Node}
    (hBA : B.Passes A) (h : Derives B ls n) : Derives A ls n := by
  induction hBA with
  | refl => exact h
  | step hBC _ ih => exact ih (h.unit hBC)

end Resugar
