import Resugar.Proofs.Tree.Role

/-!
# Properties of the nodes of a tree

Many properties of a tree say no more than that all nodes in it have a property,
each in the role in which it stands. Rebuilding a class takes a tree apart and
puts its nodes together again. What holds of the parts then holds of the whole,
if the property is `Compositional`: apart from names, markup and module items, a
node has it if and only if the nodes below it do. It is `Hereditary` if moreover
a name has it wherever it may stand, and other nodes can take the place of
calls.
-/

namespace Resugar

namespace Node

/-- The kinds of markup. -/
def isMarkup : Node → Bool
  | element .. => true
  | namedAttribute .. => true
  | spreadAttribute .. => true
  | container .. => true
  | markupText .. => true
  | _ => false

/-- Imports, exports and what stands in their lists. -/
def isModuleItem : Node → Bool
  | importDefault .. => true
  | importNamespace .. => true
  | importName .. => true
  | importDecl .. => true
  | exportName .. => true
  | exportNamed .. => true
  | exportDefault .. => true
  | exportAll .. => true
  | _ => false

/-- The kinds of nodes that no class is made of, but may have in it. -/
def isForeign (n : Node) : Bool :=
  n.isMarkup || n.isModuleItem

/-- Nodes that are no more than what stands below them. -/
def isComposed (n : Node) : Bool :=
  !n.isForeign && !n.isIdentifier

end Node

/-- A property of nodes in roles that a node has if and only if the nodes below
    it do. Names, markup and module items may have it for reasons of their own.
    -/
structure Compositional (Q : Role → Node → Prop) : Prop where
  /-- What a node has in a role of its own, it has anywhere. -/
  any {role : Role} {n : Node} : Q role n → role ≠ .unwalked → Q .any n
  /-- The values in the head of a loop are left out: a rule may forbid them. -/
  iff {role : Role} {n : Node} : n.isComposed = true → role.shape n = true → role ≠ .headValue →
    (Q role n ↔ ∀ p ∈ n.fields.zipIdx, ∀ c ∈ p.1.slot.nodes, Q (role.below n p.2 p.1.walked) c)
  /-- A name that is not walked is no variable. -/
  unwalked {x : Text} : Q .unwalked (.identifier x)

namespace Compositional

variable {Q : Role → Node → Prop} (hQ : Compositional Q) {o computed : Bool} {key body : Node}
  {id : Option Node}
include hQ

/-- A composed node has the property if and only if its parts do. -/
theorem any_iff {n : Node} (h : n.isComposed = true) :
    Q .any n ↔ ∀ p ∈ n.fields.zipIdx, ∀ c ∈ p.1.slot.nodes, Q (Role.any.below n p.2 p.1.walked) c :=
  hQ.iff h rfl Role.noConfusion

theorem literal_unwalked {value : Value} {spelling : Option Text} :
    Q .unwalked (.literal value spelling) :=
  (hQ.iff rfl rfl Role.noConfusion).2 nofun

theorem thisExpr : Q .any .thisExpr :=
  (hQ.any_iff rfl).2 nofun

theorem superExpr : Q .any .superExpr :=
  (hQ.any_iff rfl).2 nofun

attribute [local simp] Field.single Field.list Slot.nodes Role.below Role.fields Role.grouped
  Role.key Role.inner

theorem newExpr {callee : Node} {arguments : List Node} :
    Q .any (.newExpr callee arguments) ↔ Q .any callee ∧ ∀ a ∈ arguments, Q .any a := by
  rw [hQ.any_iff rfl]
  simp

theorem call {callee : Node} {arguments : List Node} :
    Q .any (.call callee arguments o) ↔ Q .any callee ∧ ∀ a ∈ arguments, Q .any a := by
  rw [hQ.any_iff rfl]
  simp

/-- The key of a member is walked only if it is computed. -/
theorem member {receiver property : Node} :
    Q .any (.member receiver property computed o) ↔
      Q .any receiver ∧ Q (.key computed) property := by
  rw [hQ.any_iff rfl]
  cases computed <;> simp

/-- What is assigned to has the property as something written. -/
theorem assignment {operator : Text} {left right : Node} :
    Q .any (.assignment operator left right) ↔ Q (.pattern .written) left ∧ Q .any right := by
  rw [hQ.any_iff rfl]
  simp

theorem logical {operator : Text} {left right : Node} :
    Q .any (.logical operator left right) ↔ Q .any left ∧ Q .any right := by
  rw [hQ.any_iff rfl]
  simp

theorem parenthesized {expression : Node} :
    Q .any (.parenthesized expression) ↔ Q .any expression := by
  rw [hQ.any_iff rfl]
  simp

theorem spread {argument : Node} : Q .any (.spread argument) ↔ Q .any argument := by
  rw [hQ.any_iff rfl]
  simp

theorem array {elements : List (Option Node)} :
    Q .any (.array elements) ↔ ∀ e, some e ∈ elements → Q .any e := by
  rw [hQ.any_iff rfl]
  simp

theorem object {entries : List Node} : Q .any (.object entries) ↔ ∀ e ∈ entries, Q .any e := by
  rw [hQ.any_iff rfl]
  simp

theorem entry {value : Node} {kind : EntryKind} {shorthand isMethod : Bool} :
    Q .any (.entry key value kind computed shorthand isMethod) ↔
      Q (.key computed) key ∧ Q .any value := by
  rw [hQ.any_iff rfl]
  cases computed <;> simp

/-- A function binds its own name and its parameters. -/
theorem functionExpr {params : List Node} {isAsync isGenerator : Bool} :
    Q .any (.functionExpr id params body isAsync isGenerator) ↔
      (∀ a ∈ id, Q .name a) ∧ (∀ a ∈ params, Q (.pattern .bound) a) ∧ Q .any body := by
  rw [hQ.any_iff rfl]
  simp

theorem functionDecl {params : List Node} {isAsync isGenerator : Bool} :
    Q .any (.functionDecl id params body isAsync isGenerator) ↔
      (∀ a ∈ id, Q .name a) ∧ (∀ a ∈ params, Q (.pattern .bound) a) ∧ Q .any body := by
  rw [hQ.any_iff rfl]
  simp

/-- A class binds its own name. -/
theorem classExpr {superClass : Option Node} :
    Q .any (.classExpr id superClass body) ↔
      (∀ a ∈ id, Q .name a) ∧ (∀ a ∈ superClass, Q .any a) ∧ Q .any body := by
  rw [hQ.any_iff rfl]
  simp

theorem classDecl {superClass : Option Node} :
    Q .any (.classDecl id superClass body) ↔
      (∀ a ∈ id, Q .name a) ∧ (∀ a ∈ superClass, Q .any a) ∧ Q .any body := by
  rw [hQ.any_iff rfl]
  simp

theorem classBody {body : List Node} : Q .any (.classBody body) ↔ ∀ m ∈ body, Q .any m := by
  rw [hQ.any_iff rfl]
  simp

theorem method {value : Node} {kind : MethodKind} {isStatic : Bool} :
    Q .any (.method key value kind isStatic computed) ↔ Q (.key computed) key ∧ Q .any value := by
  rw [hQ.any_iff rfl]
  cases computed <;> simp

theorem classField {value : Option Node} {isStatic : Bool} :
    Q .any (.classField key value isStatic computed) ↔
      Q (.key computed) key ∧ ∀ a ∈ value, Q .any a := by
  rw [hQ.any_iff rfl]
  cases computed <;> simp

theorem program {body : List Node} : Q .any (.program body) ↔ ∀ s ∈ body, Q .any s := by
  rw [hQ.any_iff rfl]
  simp

theorem block {body : List Node} : Q .any (.block body) ↔ ∀ s ∈ body, Q .any s := by
  rw [hQ.any_iff rfl]
  simp

theorem exprStmt {expression : Node} : Q .any (.exprStmt expression) ↔ Q .any expression := by
  rw [hQ.any_iff rfl]
  simp

theorem returnStmt {argument : Option Node} :
    Q .any (.returnStmt argument) ↔ ∀ a ∈ argument, Q .any a := by
  rw [hQ.any_iff rfl]
  simp

theorem forStmt {init test step : Option Node} :
    Q .any (.forStmt init test step body) ↔
      (∀ a ∈ init, Q .any a) ∧ (∀ a ∈ test, Q .any a) ∧ (∀ a ∈ step, Q .any a) ∧ Q .any body := by
  rw [hQ.any_iff rfl]
  simp

/-- A declarator binds what it declares. -/
theorem declarator {id : Node} {init : Option Node} :
    Q .any (.declarator id init) ↔ Q (.pattern .bound) id ∧ ∀ a ∈ init, Q .any a := by
  rw [hQ.any_iff rfl]
  simp

theorem varDecl {kind : VariableKind} {declarators : List Node} :
    Q .any (.varDecl kind declarators) ↔ ∀ d ∈ declarators, Q .any d := by
  rw [hQ.any_iff rfl]
  simp

theorem restPattern {argument : Node} :
    Q (.pattern .bound) (.restPattern argument) ↔ Q (.pattern .bound) argument := by
  rw [hQ.iff rfl rfl Role.noConfusion]
  simp

/-- A member can be written wherever it can stand. -/
theorem written {receiver property : Node} :
    Q (.pattern .written) (.member receiver property computed o) ↔
      Q .any (.member receiver property computed o) := by
  rw [hQ.iff rfl rfl Role.noConfusion, hQ.any_iff rfl]
  simp

theorem ungroup {n : Node} : Q .any n.ungroup ↔ Q .any n := by
  fun_induction Node.ungroup n with
  | case1 e ih => rw [ih, hQ.parenthesized]
  | case2 n => rfl

end Compositional

/-- What has a property can take the place of calls that have it. -/
def Exchanges (Q : Role → Node → Prop) : Prop :=
  ∀ (f : Bool → Node → Option Node) (n : Node) (nested : Bool),
    (∀ nested m m', f nested m = some m' → m.isCall = true ∧ (Q .any m → Q .any m')) → Q .any n →
      Q .any (n.replaceAll f nested)

/-- A property that names have wherever they may stand, and that is kept when
    calls are replaced. -/
structure Hereditary (Q : Role → Node → Prop) : Prop extends Compositional Q where
  exchanges : Exchanges Q
  name {x : Text} : Q .any (.identifier x) → Q .name (.identifier x)
  bound {x : Text} : Q .any (.identifier x) → Q (.pattern .bound) (.identifier x)
  assigned {x : Text} : Q .any (.identifier x) → Q (.pattern .written) (.identifier x)

/-! ## Rules -/

namespace Rule

variable {R : Rule}

/-- What fits a rule, by roles. -/
abbrev fits (R : Rule) (role : Role) (n : Node) : Prop :=
  n.Fits R role

theorem compositional (R : Rule) : Compositional R.fits where
  any h hrole := h.any hrole
  iff {role n} hn hshape hrole := by
    have hroot : R.admits role n = true := by
      unfold admits
      rw [hshape, bne_iff_ne.2 hrole]
      split
      · cases hn
      · cases hn
      · simp
    exact Node.fits_iff.trans (and_iff_right hroot)
  unwalked := Node.fits_identifier_unwalked

theorem Even.exchanges (hR : R.Even) : Exchanges R.fits := by
  intro f n nested hf h
  refine h.replaceAll hR (fun nested m m' hm hmm' => ?_) Role.noConfusion nested
  obtain ⟨hcall, hm'⟩ := hf nested m m' hmm'
  unfold Node.isCall at hcall
  split at hcall
  · exact ⟨rfl, rfl, hm' hm⟩
  · cases hcall

theorem Simple.hereditary (hR : R.Simple) : Hereditary R.fits where
  toCompositional := R.compositional
  exchanges := hR.even.exchanges
  name h := Node.fits_identifier_name (Node.fits_identifier.1 h) (hR.names _).1
  bound h := Node.fits_identifier_bound (Node.fits_identifier.1 h) (hR.names _).1
  assigned h := Node.fits_identifier_written rfl (Node.fits_identifier.1 h) (hR.names _).2

end Rule

end Resugar
