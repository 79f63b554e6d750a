import Resugar.Proofs.Grammar.Expression

/-!
# Reading expressions

A reader of expressions by recursive descent. It reads whatever the grammar
derives, in the same tree (`Derives.follows`). As it is a function, the grammar
is unambiguous (`Derives.unique`).

The operators that group to the left make the grammar left recursive, which a
reader cannot follow. It reads an operand and goes on with the operators after
it (`readOperators`), and so it does with members and calls (`readSuffixes`). So
what is proved by induction on a derivation is not that the reader ends with the
tree, but that it goes on from there: whatever it makes of the tree and the
lexemes to come, it makes of the whole.
-/

namespace Resugar

open List Nonterminal
open Text (ofString)

namespace Nonterminal

/-- The nonterminal of the operands between operators that group to the left. -/
def operand? : Nonterminal → Option Nonterminal
  | shortCircuit => some logicalOr
  | logicalOr => some logicalAnd
  | logicalAnd => some bitwiseOr
  | bitwiseOr => some bitwiseXor
  | bitwiseXor => some bitwiseAnd
  | bitwiseAnd => some equality
  | equality => some relational
  | relational => some shift
  | shift => some additive
  | additive => some multiplicative
  | multiplicative => some exponentiation
  | _ => none

/-- The operators that group to the left. -/
def joiners : Nonterminal → List String
  | shortCircuit => ["??"]
  | A => A.operators ++ A.logicalOperators

/-- Two operands with an operator between them. -/
def join (A : Nonterminal) (op : Text) (l r : Node) : Node :=
  if A.operators.isEmpty then .logical op l r else .binary op l r

end Nonterminal

/-! ## The reader -/

/-- The next lexeme, if it is among some, and the lexemes after it. -/
def next? (among : List String) : List Text → Option (Text × List Text)
  | [] => none
  | l :: rest => if among.any (fun s => l == ofString s) then some (l, rest) else none

/-- One expression, or several with commas between them. -/
def collect : List Node → Node
  | [e] => e
  | es => .sequence es

mutual

/-- Read an expression. -/
def readExpression : Nat → List Text → Option (Node × List Text)
  | 0, _ => none
  | f + 1, ls => (readItems f ls).map fun (es, rest) => (collect es, rest)

/-- Read expressions with commas between them. -/
def readItems : Nat → List Text → Option (List Node × List Text)
  | 0, _ => none
  | f + 1, ls => (readAssignment f ls).bind fun (e, rest) =>
    match next? [","] rest with
    | some (_, rest) => (readItems f rest).map fun (es, rest) => (e :: es, rest)
    | none => some ([e], rest)

/-- Read arguments, up to the parenthesis after them. -/
def readArguments : Nat → List Text → Option (List Node × List Text)
  | 0, _ => none
  | f + 1, ls =>
    match next? [")"] ls with
    | some (_, rest) => some ([], rest)
    | none => (readAssignment f ls).bind fun (e, rest) =>
      match next? [","] rest with
      | some (_, rest) => (readArguments f rest).map fun (es, rest) => (e :: es, rest)
      | none => (next? [")"] rest).map fun (_, rest) => ([e], rest)

/-- Read an assignment expression. -/
def readAssignment : Nat → List Text → Option (Node × List Text)
  | 0, _ => none
  | f + 1, ls => (readConditional f ls).bind fun (l, rest) =>
    match next? assignmentOperators rest with
    | some (op, rest) => (readAssignment f rest).map fun (r, rest) => (.assignment op l r, rest)
    | none => some (l, rest)

/-- Read a conditional expression. -/
def readConditional : Nat → List Text → Option (Node × List Text)
  | 0, _ => none
  | f + 1, ls => (readLevel f .shortCircuit ls).bind fun (t, rest) =>
    match next? ["?"] rest with
    | some (_, rest) => (readAssignment f rest).bind fun (c, rest) =>
      (next? [":"] rest).bind fun (_, rest) =>
        (readAssignment f rest).map fun (a, rest) => (.conditional t c a, rest)
    | none => some (t, rest)

/-- Read operands with operators between them that group to the left. -/
def readLevel : Nat → Nonterminal → List Text → Option (Node × List Text)
  | 0, _, _ => none
  | f + 1, A, ls =>
    match A.operand? with
    | none => readPower f ls
    | some B => (readLevel f B ls).bind fun (l, rest) => readOperators f A B l rest

/-- Go on after an operand. -/
def readOperators : Nat → Nonterminal → Nonterminal → Node → List Text → Option (Node × List Text)
  | 0, _, _, _, _ => none
  | f + 1, A, B, l, ls =>
    match next? A.joiners ls with
    | some (op, rest) =>
      (readLevel f B rest).bind fun (r, rest) => readOperators f A B (A.join op l r) rest
    | none => some (l, ls)

/-- Read a power. -/
def readPower : Nat → List Text → Option (Node × List Text)
  | 0, _ => none
  | f + 1, ls => (readUnary f ls).bind fun (l, rest) =>
    match next? ["**"] rest with
    | some (op, rest) => (readPower f rest).map fun (r, rest) => (.binary op l r, rest)
    | none => some (l, rest)

/-- Read an expression with one operand at most. -/
def readUnary : Nat → List Text → Option (Node × List Text)
  | 0, _ => none
  | f + 1, ls =>
    match next? unaryOperators ls with
    | some (op, rest) => (readUnary f rest).map fun (n, rest) => (.unary op n, rest)
    | none =>
      match next? updateOperators ls with
      | some (op, rest) => (readUnary f rest).map fun (n, rest) => (.update op n true, rest)
      | none => (readChain f true ls).map fun (n, rest) =>
        match next? updateOperators rest with
        | some (op, rest) => (.update op n false, rest)
        | none => (n, rest)

/-- Read members, and calls if they can be taken. -/
def readChain : Nat → (calls : Bool) → List Text → Option (Node × List Text)
  | 0, _, _ => none
  | f + 1, calls, ls => (readHead f ls).bind fun (n, rest) => readSuffixes f calls n rest

/-- Read what members and calls are taken of. -/
def readHead : Nat → List Text → Option (Node × List Text)
  | 0, _ => none
  | _ + 1, [] => none
  | f + 1, l :: rest =>
    if l = "new" then
      (readChain f false rest).bind fun (c, rest) =>
        match next? ["("] rest with
        | some (_, rest) => (readArguments f rest).map fun (as, rest) => (.newExpr c as, rest)
        | none => some (.newExpr c [], rest)
    else if l = "(" then
      (readExpression f rest).bind fun (e, rest) => (next? [")"] rest).map fun (_, rest) =>
        (.parenthesized e, rest)
    else if l = "this" then some (.thisExpr, rest)
    else some (.identifier l, rest)

/-- Go on with members, and with calls if they can be taken. -/
def readSuffixes : Nat → (calls : Bool) → Node → List Text → Option (Node × List Text)
  | 0, _, _, _ => none
  | _ + 1, _, n, [] => some (n, [])
  | f + 1, calls, n, l :: rest =>
    if l = "." then
      rest.head?.bind fun x => readSuffixes f calls
        (.member n (.identifier x) false false) rest.tail
    else if l = "[" then
      (readExpression f rest).bind fun (p, rest) =>
        (next? ["]"] rest).bind fun (_, rest) => readSuffixes f calls (.member n p true false) rest
    else if calls ∧ l = "(" then
      (readArguments f rest).bind fun (as, rest) => readSuffixes f calls (.call n as false) rest
    else if calls ∧ l = "?." then
      match next? ["(", "["] rest with
      | some (m, rest) =>
        if m = "(" then
          (readArguments f rest).bind fun (as, rest) => readSuffixes f calls (.call n as true) rest
        else
          (readExpression f rest).bind fun (p, rest) =>
            (next? ["]"] rest).bind fun (_, rest) =>
              readSuffixes f calls (.member n p true true) rest
      | none =>
        rest.head?.bind fun x => readSuffixes f calls
          (.member n (.identifier x) false true) rest.tail
    else some (n, l :: rest)

end

/-! ## Readings that settle -/

/-- With enough fuel, a reading always gives the same result. -/
def Settles {α : Type} (reading : Nat → Option α) (a : α) : Prop :=
  ∃ k, ∀ f, k ≤ f → reading f = some a

namespace Settles

variable {α β : Type} {reading : Nat → Option α} {a b : α}

theorem const : Settles (fun _ => some a) a :=
  ⟨0, fun _ _ => rfl⟩

theorem of_succ (h : Settles (fun f => reading (f + 1)) a) : Settles reading a := by
  obtain ⟨k, hk⟩ := h
  refine ⟨k + 1, fun f hf => ?_⟩
  obtain ⟨f, rfl⟩ : ∃ f', f = f' + 1 := ⟨f - 1, by omega⟩
  exact hk f (by omega)

/-- Readings in a row settle one after the other. -/
theorem bind {next : Nat → α → Option β} {c : β} (h : Settles reading a)
    (hnext : Settles (next · a) c) : Settles (fun f => (reading f).bind (next f)) c := by
  obtain ⟨k, hk⟩ := h
  obtain ⟨k', hk'⟩ := hnext
  refine ⟨max k k', fun f hf => ?_⟩
  beta_reduce
  rw [hk f (le_trans (le_max_left _ _) hf), Option.bind_some]
  exact hk' f (le_trans (le_max_right _ _) hf)

theorem map {g : α → β} (h : Settles reading a) : Settles (fun f => (reading f).map (g)) (g a) := by
  obtain ⟨k, hk⟩ := h
  exact ⟨k, fun f hf => by beta_reduce; rw [hk f hf, Option.map_some]⟩

theorem unique (ha : Settles reading a) (hb : Settles reading b) : a = b := by
  obtain ⟨k, hk⟩ := ha
  obtain ⟨k', hk'⟩ := hb
  have h := hk' (max k k') (le_max_right _ _)
  rw [hk (max k k') (le_max_left _ _)] at h
  exact Option.some.inj h

end Settles

/-! ## Where an expression ends -/

/-- What can follow an expression, the more tightly binding first. -/
def tiers : List (List String) :=
  [[".", "[", "(", "?."], updateOperators, ["**"], ["*", "/", "%"], ["+", "-"], ["<<", ">>", ">>>"],
    ["<", ">", "<=", ">=", "instanceof", "in"], ["==", "!=", "===", "!=="], ["&"], ["^"],
      ["|"], ["&&"], ["||"], ["??"],
    ["?"], assignmentOperators, [","]]

/-- How loosely a lexeme binds to an expression before it. -/
def looseness (l : Text) : Nat :=
  tiers.findIdx (·.any fun s => l == ofString s)

/-- Whether lexemes go on with nothing that binds more tightly than a tier. -/
def Ends (tier : Nat) (ls : List Text) : Prop :=
  ∀ l ∈ ls.head?, tier ≤ looseness l

theorem ends_nil (tier : Nat) : Ends tier [] := by
  intro l hl
  cases hl

variable {l x : Text} {ls rest ms : List Text} {n : Node} {out : Node × List Text}
  {parts : List (List Text × Node)} {s : String} {A B : Nonterminal}

/-- Before a lexeme of a tier, all that binds more tightly has ended. -/
theorem ends_cons {tier : Nat} (h : tier ≤ looseness l) : Ends tier (l :: ls) := by
  intro m hm
  cases hm
  exact h

theorem Ends.mono {tier tier' : Nat} (h : Ends tier ls) (hle : tier' ≤ tier) : Ends tier' ls :=
  fun l hl => Nat.le_trans hle (h l hl)

theorem next?_cons (among : List String) (h : s ∈ among) (rest : List Text) :
    next? among (ofString s :: rest) = some (ofString s, rest) := by
  rw [next?, if_pos]
  exact any_eq_true.2 ⟨s, h, beq_self_eq_true (ofString s)⟩

theorem next?_eq_none {among : List String} (h : ∀ s ∈ among, l ≠ ofString s)
    (rest : List Text) : next? among (l :: rest) = none := by
  rw [next?, if_neg]
  rw [Bool.not_eq_true, any_eq_false]
  intro s hs
  rw [beq_iff_eq]
  exact h s hs

/-- What binds more tightly than a tier is not next. -/
theorem Ends.next?_eq_none {tier : Nat} (h : Ends tier ls) (among : List String)
    (htight : ∀ s ∈ among, looseness (ofString s) < tier) : next? among ls = none := by
  cases ls with
  | nil => rfl
  | cons l ls =>
    refine Resugar.next?_eq_none (fun s hs heq => ?_) ls
    have := h l rfl
    rw [heq] at this
    exact Nat.not_lt.2 this (htight s hs)

/-! ## The reader follows the grammar -/

namespace Nonterminal

/-- The tier of the operators that group to the left. -/
def tier : Nonterminal → Nat
  | multiplicative => 3
  | additive => 4
  | shift => 5
  | relational => 6
  | equality => 7
  | bitwiseAnd => 8
  | bitwiseXor => 9
  | bitwiseOr => 10
  | logicalAnd => 11
  | logicalOr => 12
  | shortCircuit => 13
  | _ => 0

/-- The operators of a nonterminal are of its tier. -/
theorem looseness_of_mem_joiners {A : Nonterminal} {s : String} (h : s ∈ A.joiners) :
    looseness (ofString s) = A.tier := by
  revert s
  cases A <;> decide

/-- The operators of an operand bind more tightly than those between. -/
theorem looseness_lt_of_operand? {A B : Nonterminal} (h : A.operand? = some B)
    {s : String} (hs : s ∈ B.joiners) : looseness (ofString s) < A.tier := by
  revert s B
  cases A <;> decide

end Nonterminal

open Nonterminal in
/-- What the reader makes of the lexemes of a nonterminal, with more after them.
    Where the nonterminal can go on without end, it goes on. -/
def Follows : Nonterminal → List Text → Node → Prop
  | primary, ls, n => ∀ rest, Settles (readHead · (ls ++ rest)) (n, rest)
  | member, ls, n => ∀ calls rest out,
    Settles (readSuffixes · calls n rest) out → Settles (readChain · calls (ls ++ rest)) out
  | newOnly, ls, n => ∀ calls rest, Ends 1 rest → Settles (readChain · calls (ls ++ rest)) (n, rest)
  | call, ls, n =>
    ∀ rest out, Settles (readSuffixes · true n rest) out →
      Settles (readChain · true (ls ++ rest)) out
  | optionalChain, ls, n => ∀ rest out,
    Settles (readSuffixes · true n rest) out → Settles (readChain · true (ls ++ rest)) out
  | leftHandSide, ls, n => ∀ rest, Ends 1 rest → Settles (readChain · true (ls ++ rest)) (n, rest)
  | update, ls, n => ∀ rest, Ends 2 rest → Settles (readUnary · (ls ++ rest)) (n, rest)
  | unary, ls, n => ∀ rest, Ends 2 rest → Settles (readUnary · (ls ++ rest)) (n, rest)
  | exponentiation, ls, n => ∀ rest, Ends 3 rest → Settles (readPower · (ls ++ rest)) (n, rest)
  | coalesceHead, ls, n =>
    ∀ rest out, Ends 13 rest → Settles (readOperators · shortCircuit logicalOr n rest) out →
      Settles (readLevel · shortCircuit (ls ++ rest)) out
  | coalesce, ls, n =>
    ∀ rest out, Ends 13 rest → Settles (readOperators · shortCircuit logicalOr n rest) out →
      Settles (readLevel · shortCircuit (ls ++ rest)) out
  | shortCircuit, ls, n =>
    ∀ rest, Ends 14 rest → Settles (readLevel · shortCircuit (ls ++ rest)) (n, rest)
  | conditional, ls, n => ∀ rest, Ends 16 rest → Settles (readConditional · (ls ++ rest)) (n, rest)
  | assignment, ls, n => ∀ rest, Ends 16 rest → Settles (readAssignment · (ls ++ rest)) (n, rest)
  | expression, ls, n => ∀ rest, Ends 17 rest → Settles (readExpression · (ls ++ rest)) (n, rest)
  | A, ls, n => ∀ B, A.operand? = some B → ∀ rest out, Ends A.tier rest →
    Settles (readOperators · A B n rest) out → Settles (readLevel · A (ls ++ rest)) out

/-- Where operators group to the left, the reader goes on after an operand. -/
theorem Nonterminal.follows_level (hA : A.operators ≠ [] ∨ A.logicalOperators ≠ []) :
    Follows A ls n = ∀ B, A.operand? = some B → ∀ rest out, Ends A.tier rest →
      Settles (readOperators · A B n rest) out → Settles (readLevel · A (ls ++ rest)) out := by
  cases A <;> first | rfl | exact absurd hA (by decide)

theorem Nonterminal.eq_of_mem_units {C : Nonterminal}
    (hA : A.operators ≠ [] ∨ A.logicalOperators ≠ []) (hB : B ∈ A.units)
    (hC : A.operand? = some C) : B = C := by
  cases A <;> first | exact absurd hA (by decide) | (cases hC; exact mem_singleton.1 hB)

theorem Nonterminal.mem_joiners (h : s ∈ A.operators ∨ s ∈ A.logicalOperators) : s ∈ A.joiners := by
  have hA : A ≠ shortCircuit := by
    rintro rfl
    rcases h with h | h <;> cases h
  rw [joiners, mem_append]
  · exact h
  · exact hA

/-! ### Going on, and not going on -/

/-- Members and calls end before a lexeme that is no part of them. -/
theorem readSuffixes_settles (calls : Bool) (h : Ends 1 rest) :
    Settles (readSuffixes · calls n rest) (n, rest) := by
  refine Settles.of_succ ?_
  cases rest with
  | nil => exact Settles.const
  | cons l rest =>
    have hl {s : String} (hs : looseness (ofString s) < 1) : l ≠ ofString s := by
      intro heq
      have := h l rfl
      rw [heq] at this
      omega
    have hdot : l ≠ "." := hl (by decide)
    have hbracket : l ≠ "[" := hl (by decide)
    have hparen : l ≠ "(" := hl (by decide)
    have hoptional : l ≠ "?." := hl (by decide)
    simp only [readSuffixes, hdot, hbracket, hparen, hoptional, and_false, if_false]
    exact Settles.const

/-- Operands end before an operator that binds more loosely. -/
theorem readOperators_settles {tier : Nat} (h : Ends tier rest)
    (htight : ∀ s ∈ A.joiners, looseness (ofString s) < tier) :
    Settles (readOperators · A B n rest) (n, rest) := by
  refine Settles.of_succ ?_
  simp only [readOperators]
  rw [h.next?_eq_none _ htight]
  exact Settles.const

open Nonterminal in
/-- The reader ends with an operand where an operator of its tier, or something
    looser, follows. -/
theorem Follows.readLevel_settles (hAB : A.operand? = some B) (h : Follows B ls n)
    (hrest : Ends A.tier rest) : Settles (readLevel · B (ls ++ rest)) (n, rest) := by
  have hstop (C : Nonterminal) : Settles (readOperators · B C n rest) (n, rest) :=
    readOperators_settles hrest fun s hs => looseness_lt_of_operand? hAB hs
  cases A <;> cases hAB
  case multiplicative =>
    refine Settles.of_succ ?_
    simp only [readLevel, operand?]
    exact h rest hrest
  all_goals exact h _ rfl rest _ (hrest.mono (by decide)) (hstop _)

open Nonterminal in
/-- An operand alone is read as what the operators around it make. -/
theorem Follows.readLevel_goes_on (hAB : A.operand? = some B) (h : Follows B ls n)
    (hrest : Ends A.tier rest) (hout : Settles (readOperators · A B n rest) out) :
    Settles (readLevel · A (ls ++ rest)) out := by
  refine Settles.of_succ ?_
  simp only [readLevel, hAB]
  exact (h.readLevel_settles hAB hrest).bind hout

/-- After an operand, an operator and an operand are read, and so on. -/
theorem Follows.readOperators_goes_on {l r : Node} (hAB : A.operand? = some B) (hs : s ∈ A.joiners)
    (h : Follows B ms r) (hrest : Ends A.tier rest)
    (hout : Settles (readOperators · A B (A.join (ofString s) l r) rest) out) :
    Settles (readOperators · A B l (ofString s :: (ms ++ rest))) out := by
  refine Settles.of_succ ?_
  simp only [readOperators, next?_cons A.joiners hs]
  exact (h.readLevel_settles hAB hrest).bind hout

/-! ### How a derivation begins -/

/-- A name is no punctuator. -/
theorem ne_ofString_of_isPlainName (hx : x.isPlainName = true)
    (hs : (ofString s).isPlainName = false) : x ≠ ofString s := by
  rintro rfl
  rw [hx] at hs
  cases hs

/-- A name that is not reserved is no keyword. -/
theorem ne_ofString_of_not_isReserved (hx : x.isReserved = false)
    (hs : (ofString s).isReserved = true) : x ≠ ofString s := by
  rintro rfl
  rw [hx] at hs
  cases hs

/-- The nonterminals without operators. -/
def Nonterminal.isOperand : Nonterminal → Bool
  | primary => true
  | member => true
  | newOnly => true
  | call => true
  | optionalChain => true
  | leftHandSide => true
  | _ => false

theorem Nonterminal.isOperand_of_mem_units (h : B ∈ A.units) (hA : A.isOperand = true) :
    B.isOperand = true := by
  revert h hA
  cases A <;> cases B <;> decide

/-- The lexemes that an expression can begin with. -/
def Opens (A : Nonterminal) (l : Text) : Prop :=
  l ≠ ")" ∧ (A.isOperand = true →
    ∀ s ∈ unaryOperators ++ updateOperators, l ≠ ofString s)

instance (A : Nonterminal) (l : Text) : Decidable (Opens A l) :=
  inferInstanceAs (Decidable (_ ∧ _))

/-- Every expression can begin with a name. -/
theorem opens_name (hx : x.isPlainName = true) (hr : x.isReserved = false) : Opens A x := by
  refine ⟨ne_ofString_of_isPlainName hx (by decide), fun _ s hs => ?_⟩
  have hs' : (ofString s).isPlainName = false ∨ (ofString s).isReserved = true := by
    revert s
    decide
  rcases hs' with h | h
  · exact ne_ofString_of_isPlainName hx h
  · exact ne_ofString_of_not_isReserved hr h

/-- An expression with operators can begin with one. -/
theorem opens_operator (hs : s ∈ unaryOperators ++ updateOperators) (hA : A.isOperand = false) :
    Opens A (ofString s) := by
  refine ⟨?_, fun hA' => absurd hA' (by rw [hA]; decide)⟩
  revert s
  decide

/-- What begins with a nonterminal begins like it, operators apart. -/
theorem Opens.mono (h : Opens A l) (hAB : B.isOperand = true → A.isOperand = true) : Opens B l :=
  ⟨h.1, fun hB => h.2 (hAB hB)⟩

/-- A derivation is of at least one lexeme, and does not begin with just any. -/
theorem Derives.opens (h : Derives A ls n) : ∃ l ls', ls = l :: ls' ∧ Opens A l := by
  -- an expression whose first part is another expression begins as that one does
  have happend {B C : Nonterminal} {ls ms : List Text} (h : ∃ l ls', ls = l :: ls' ∧ Opens B l)
      (hBC : C.isOperand = true → B.isOperand = true) : ∃ l ls', ls ++ ms = l :: ls' ∧
      Opens C l := by
    obtain ⟨l, ls', rfl, hl⟩ := h
    exact ⟨l, ls' ++ ms, rfl, hl.mono hBC⟩
  have hchain {B : Nonterminal} (hB : B ∈ Nonterminal.chains) : B.isOperand = true := by
    revert hB
    cases B <;> decide
  induction h with
  | unit hAB _ ih =>
    obtain ⟨l, ls', rfl, hl⟩ := ih
    exact ⟨l, ls', rfl, hl.mono (isOperand_of_mem_units hAB)⟩
  | this | group | newArguments | newBare => exact ⟨_, _, rfl, by decide⟩
  | name hx hr => exact ⟨_, _, rfl, opens_name hx hr⟩
  | leading hs _ _ => exact ⟨_, _, rfl, opens_operator (mem_append_right _ hs) rfl⟩
  | unary hs _ _ => exact ⟨_, _, rfl, opens_operator (mem_append_left _ hs) rfl⟩
  | @sequence parts hlen _ ih =>
    match parts, hlen, ih with
    | p :: q :: parts, _, ih =>
      rw [commas, map_cons, map_cons, intercalate,
        intersperse_cons_cons, flatten_cons]
      exact happend (ih p mem_cons_self) (by decide)
  | property _ _ _ ih | index _ _ _ ih | callAgain _ _ _ _ ih | binary _ _ _ _ ih
  | logical _ _ _ _ ih => exact happend ih id
  | optionalCall hA _ _ _ ih | optionalProperty hA _ _ ih | optionalIndex hA _ _ ih =>
    exact happend ih fun _ => hchain hA
  | callMember _ _ _ ih | trailing _ _ ih | power _ _ ih | coalesce _ _ ih | conditional _ _ _ ih
  | assignment _ _ _ ih => exact happend ih (by decide)

/-- No derivation begins with a parenthesis that closes. -/
theorem Derives.next?_close (h : Derives A ls n) (rest : List Text) :
    next? [")"] (ls ++ rest) = none := by
  obtain ⟨l, ls', rfl, hl, -⟩ := h.opens
  exact next?_eq_none (by simpa using hl) (ls' ++ rest)

/-- What is no operator's doing does not begin with one. -/
theorem Derives.next?_operator (h : Derives A ls n) (hA : A.isOperand = true) (rest : List Text) :
    next? unaryOperators (ls ++ rest) = none ∧ next? updateOperators (ls ++ rest) = none := by
  obtain ⟨l, ls', rfl, -, hl⟩ := h.opens
  exact ⟨next?_eq_none (fun s hs => hl hA s (mem_append_left _ hs)) (ls' ++ rest),
    next?_eq_none (fun s hs => hl hA s (mem_append_right _ hs)) (ls' ++ rest)⟩

/-! ### Lists -/

theorem commas_cons_cons (p q : List Text) (ps : List (List Text)) :
    commas (p :: q :: ps) = p ++ ofString "," :: commas (q :: ps) := by
  simp [commas, intercalate, intersperse_cons_cons]

theorem commas_singleton (p : List Text) : commas [p] = p := by
  simp [commas, intercalate]

theorem next?_comma (rest : List Text) :
    next? [","] ("," :: rest) = some (ofString ",", rest) :=
  next?_cons [","] mem_cons_self rest

theorem next?_close (rest : List Text) :
    next? [")"] (")" :: rest) = some (ofString ")", rest) :=
  next?_cons [")"] mem_cons_self rest

/-- Expressions with commas between them are read one after the other. -/
theorem readItems_settles {p : List Text × Node}
    (hparts : ∀ q ∈ p :: parts, Follows .assignment q.1 q.2) (hrest : Ends 17 rest) :
    Settles (readItems · (commas ((p :: parts).map (·.1)) ++ rest))
      ((p :: parts).map (·.2), rest) := by
  induction parts generalizing p with
  | nil =>
    refine Settles.of_succ ?_
    simp only [readItems, map_cons, map_nil, commas_singleton]
    refine (hparts p mem_cons_self rest (hrest.mono (by decide))).bind ?_
    simp only [hrest.next?_eq_none [","] (by decide)]
    exact Settles.const
  | cons q parts ih =>
    refine Settles.of_succ ?_
    simp only [readItems, map_cons, commas_cons_cons, append_assoc, cons_append]
    refine (hparts p mem_cons_self _ (ends_cons (by decide))).bind ?_
    simp only [next?_comma]
    exact (ih fun r hr => hparts r (mem_cons_of_mem _ hr)).map

/-- There may be no arguments. -/
theorem readArguments_close (rest : List Text) :
    Settles (readArguments · (")" :: rest)) ([], rest) := by
  refine Settles.of_succ ?_
  simp only [readArguments, next?_close]
  exact Settles.const

/-- Arguments are read up to the closing parenthesis, with a comma or not. -/
theorem readArguments_items {close : List Text} (hclose : close = [] ∨ close = [ofString ","])
    {p : List Text × Node} (rest : List Text)
    (hparts : ∀ q ∈ p :: parts, Derives .assignment q.1 q.2 ∧ Follows .assignment q.1 q.2) :
    Settles (readArguments · (commas ((p :: parts).map (·.1)) ++
      (close ++ ofString ")" :: rest))) ((p :: parts).map (·.2), rest) := by
  induction parts generalizing p with
  | nil =>
    obtain ⟨hp, hfollows⟩ := hparts p mem_cons_self
    refine Settles.of_succ ?_
    simp only [readArguments, map_cons, map_nil, commas_singleton, hp.next?_close]
    rcases hclose with rfl | rfl
    · refine (hfollows _ (ends_cons (by decide))).bind ?_
      exact Settles.const
    · refine (hfollows _ (ends_cons (by decide))).bind ?_
      exact (readArguments_close rest).map
  | cons q parts ih =>
    obtain ⟨hp, hfollows⟩ := hparts p mem_cons_self
    refine Settles.of_succ ?_
    simp only [readArguments, map_cons, commas_cons_cons, append_assoc,
      cons_append, hp.next?_close]
    refine (hfollows _ (ends_cons (by decide))).bind ?_
    simp only [next?_comma]
    exact (ih fun r hr => hparts r (mem_cons_of_mem _ hr)).map

/-- The lexemes of arguments are read as such. -/
theorem IsTuple.readArguments_settles (hms : IsTuple (parts.map (·.1)) ms)
    (hparts : ∀ p ∈ parts, Derives .assignment p.1 p.2 ∧ Follows .assignment p.1 p.2) :
    ∃ ms', ms = ofString "(" :: ms' ∧
      ∀ rest, Settles (readArguments · (ms' ++ rest)) (parts.map (·.2), rest) := by
  cases parts with
  | nil =>
    rcases hms with rfl | ⟨hne, -⟩
    · exact ⟨_, rfl, readArguments_close⟩
    · exact absurd rfl hne
  | cons p parts =>
    rcases hms with rfl | ⟨-, rfl⟩
    · refine ⟨_, rfl, fun rest => ?_⟩
      rw [append_assoc]
      exact readArguments_items (.inl rfl) rest hparts
    · refine ⟨_, rfl, fun rest => ?_⟩
      rw [append_assoc]
      exact readArguments_items (.inr rfl) rest hparts

/-! ### Members and calls -/

/-- A nonterminal that members can be taken of is read, and the reader goes on
    with calls too. -/
theorem Follows.readChain_goes_on (hA : A ∈ Nonterminal.chains) (h : Follows A ls n)
    (hout : Settles (readSuffixes · true n rest) out) :
    Settles (readChain · true (ls ++ rest)) out := by
  simp only [Nonterminal.chains, mem_cons, not_mem_nil, or_false] at hA
  rcases hA with rfl | rfl | rfl
  · exact h true rest out hout
  · exact h rest out hout
  · exact h rest out hout

/-- If the reader goes on from one tree to another one, it does so after
    whatever was read as the first. -/
theorem Follows.extend {n' : Node} (hA : A ∈ Nonterminal.chains) (h : Follows A ls n)
    (hms : ∀ calls rest out, Settles (readSuffixes · calls n' rest) out →
      (A ≠ .member → calls = true) → Settles (readSuffixes · calls n (ms ++ rest)) out) :
    Follows A (ls ++ ms) n' := by
  simp only [Nonterminal.chains, mem_cons, not_mem_nil, or_false] at hA
  rcases hA with rfl | rfl | rfl
  · intro calls rest out hout
    rw [append_assoc]
    exact h calls _ out (hms calls rest out hout fun hne => absurd rfl hne)
  · intro rest out hout
    rw [append_assoc]
    exact h _ out (hms true rest out hout fun _ => rfl)
  · intro rest out hout
    rw [append_assoc]
    exact h _ out (hms true rest out hout fun _ => rfl)

/-! ### The induction -/

open Nonterminal in
/-- What is read as a nonterminal is read as one that it alone makes up. -/
theorem Follows.unit (hAB : B ∈ A.units) (hB : Derives B ls n) (h : Follows B ls n) :
    Follows A ls n := by
  cases A <;> simp only [units, mem_cons, not_mem_nil, or_false] at hAB
  case member =>
    subst hAB
    intro calls rest out hout
    refine Settles.of_succ ?_
    simp only [readChain]
    exact (h rest).bind hout
  case newOnly =>
    subst hAB
    intro calls rest hrest
    exact h calls rest _ (readSuffixes_settles calls hrest)
  case leftHandSide =>
    intro rest hrest
    rcases hAB with rfl | rfl | rfl
    · exact h true rest hrest
    · exact h rest _ (readSuffixes_settles true hrest)
    · exact h rest _ (readSuffixes_settles true hrest)
  case update =>
    subst hAB
    intro rest hrest
    obtain ⟨hunary, hupdate⟩ := hB.next?_operator rfl rest
    refine Settles.of_succ ?_
    simp only [readUnary, hunary, hupdate]
    have := (h rest (hrest.mono (by decide))).map (g := fun (n, rest) =>
      match next? updateOperators rest with
      | some (op, rest) => (Node.update op n false, rest)
      | none => (n, rest))
    simpa only [hrest.next?_eq_none updateOperators (by decide)] using this
  case unary =>
    subst hAB
    exact h
  case exponentiation =>
    subst hAB
    intro rest hrest
    refine Settles.of_succ ?_
    simp only [readPower]
    refine (h rest (hrest.mono (by decide))).bind ?_
    simp only [hrest.next?_eq_none ["**"] (by decide)]
    exact Settles.const
  case coalesceHead =>
    rcases hAB with rfl | rfl
    · exact h
    · -- no operator of the two tiers between comes before `??`
      have hand : Follows logicalAnd ls n := by
        rintro B ⟨⟩ rest out hrest hout
        exact h.readLevel_goes_on rfl hrest hout
      have hor : Follows logicalOr ls n := by
        rintro B ⟨⟩ rest out hrest hout
        exact hand.readLevel_goes_on rfl hrest hout
      intro rest out hrest hout
      exact hor.readLevel_goes_on rfl hrest hout
  case shortCircuit =>
    intro rest hrest
    have hstop : Settles (readOperators · shortCircuit logicalOr n rest) (n, rest) :=
      readOperators_settles hrest (by decide)
    rcases hAB with rfl | rfl
    · exact h.readLevel_goes_on rfl (hrest.mono (by decide)) hstop
    · exact h rest _ (hrest.mono (by decide)) hstop
  case conditional =>
    subst hAB
    intro rest hrest
    refine Settles.of_succ ?_
    simp only [readConditional]
    refine (h rest (hrest.mono (by decide))).bind ?_
    simp only [hrest.next?_eq_none ["?"] (by decide)]
    exact Settles.const
  case assignment =>
    subst hAB
    intro rest hrest
    refine Settles.of_succ ?_
    simp only [readAssignment]
    refine (h rest (hrest.mono (by decide))).bind ?_
    simp only [hrest.next?_eq_none assignmentOperators (by decide)]
    exact Settles.const
  case expression =>
    subst hAB
    intro rest hrest
    refine Settles.of_succ ?_
    simp only [readExpression]
    have hitem := readItems_settles (p := (ls, n)) (forall_mem_singleton.2 h) hrest
    rw [map_singleton, commas_singleton] at hitem
    exact hitem.map
  all_goals
    subst hAB
    rintro B ⟨⟩ rest out hrest hout
    exact h.readLevel_goes_on rfl hrest hout

/-- What is read as a nonterminal is read as every one that it makes up. -/
theorem Follows.passes (hBA : B.Passes A) (hB : Derives B ls n) (h : Follows B ls n) :
    Follows A ls n := by
  induction hBA with
  | refl => exact h
  | step hBC _ ih => exact ih (hB.unit hBC) (h.unit hBC hB)

/-- Two operands of a level with one of its operators between them. -/
theorem Follows.join {l r : Node} {op : String} (hop : op ∈ A.operators ∨ op ∈ A.logicalOperators)
    (hAB : B ∈ A.units) (hl : Follows A ls l) (hr : Follows B ms r) :
    Follows A (ls ++ ofString op :: ms) (A.join (ofString op) l r) := by
  have hlevel : A.operators ≠ [] ∨ A.logicalOperators ≠ [] :=
    hop.imp ne_nil_of_mem ne_nil_of_mem
  rw [follows_level hlevel] at hl ⊢
  intro C hC rest out hrest hout
  obtain rfl := eq_of_mem_units hlevel hAB hC
  rw [append_assoc]
  have hjoins := mem_joiners hop
  refine hl B hC _ out (ends_cons (looseness_of_mem_joiners hjoins).ge) ?_
  exact hr.readOperators_goes_on hC hjoins hrest hout

/-- The reader reads what the grammar derives. -/
theorem Derives.follows (h : Derives A ls n) : Follows A ls n := by
  induction h with
  | unit hAB hB ih => exact ih.unit hAB hB
  | this => exact fun rest => Settles.of_succ Settles.const
  | @name x hx hr =>
    intro rest
    refine Settles.of_succ ?_
    have hnew : x ≠ "new" := ne_ofString_of_not_isReserved hr (by decide)
    have hparen : x ≠ "(" := ne_ofString_of_isPlainName hx (by decide)
    have hthis : x ≠ "this" := ne_ofString_of_not_isReserved hr (by decide)
    simp only [singleton_append, readHead, hnew, hparen, hthis, if_false]
    exact Settles.const
  | group _ ih =>
    intro rest
    refine Settles.of_succ ?_
    simp only [cons_append, append_assoc, readHead, if_true]
    exact (ih (")" :: rest) (ends_cons (by decide))).bind Settles.const
  -- suffixes: the reader has read what they belong to and goes on with them
  | property hA _ hx ih => exact ih.extend hA fun calls rest out hout _ => Settles.of_succ hout
  | index hA _ _ ih ihp =>
    refine ih.extend hA fun calls rest out hout _ => Settles.of_succ ?_
    simp only [cons_append, append_assoc, readSuffixes, if_true]
    exact (ihp (ofString "]" :: rest) (ends_cons (by decide))).bind hout
  | @newArguments ls ms c parts _ hparts hms ih ihparts =>
    obtain ⟨ms', rfl, harguments⟩ :=
      hms.readArguments_settles fun p hp => ⟨hparts p hp, ihparts p hp⟩
    intro calls rest out hout
    have hcallee := ih false ("(" :: (ms' ++ rest)) _ (Settles.of_succ Settles.const)
    have hhead : Settles (readHead
        · ("new" :: (ls ++ ofString "(" :: (ms' ++ rest))))
        (.newExpr c (parts.map (·.2)), rest) :=
      Settles.of_succ (hcallee.bind (harguments rest).map)
    refine Settles.of_succ ?_
    simp only [readChain, cons_append, append_assoc]
    exact hhead.bind hout
  | @newBare ls c _ ih =>
    intro calls rest hrest
    have hhead : Settles (readHead · (ofString "new" :: (ls ++ rest)))
        (.newExpr c [], rest) := by
      refine Settles.of_succ ((ih false rest hrest).bind ?_)
      simp only [hrest.next?_eq_none ["("] (by decide)]
      exact Settles.const
    refine Settles.of_succ ?_
    simp only [readChain, cons_append]
    exact hhead.bind (readSuffixes_settles calls hrest)
  | callMember _ hparts hms ih ihparts =>
    obtain ⟨ms', rfl, harguments⟩ :=
      hms.readArguments_settles fun p hp => ⟨hparts p hp, ihparts p hp⟩
    intro rest out hout
    rw [append_assoc]
    exact ih true _ out (Settles.of_succ ((harguments rest).bind hout))
  | callAgain hA _ hparts hms ih ihparts =>
    obtain ⟨ms', rfl, harguments⟩ :=
      hms.readArguments_settles fun p hp => ⟨hparts p hp, ihparts p hp⟩
    refine ih.extend (mem_cons_of_mem _ hA)
      fun calls rest out hout hcalls => Settles.of_succ ?_
    obtain rfl : calls = true := hcalls (by rintro rfl; revert hA; decide)
    exact (harguments rest).bind hout
  | optionalCall hA _ hparts hms ih ihparts =>
    obtain ⟨ms', rfl, harguments⟩ :=
      hms.readArguments_settles fun p hp => ⟨hparts p hp, ihparts p hp⟩
    intro rest out hout
    rw [append_assoc]
    exact ih.readChain_goes_on hA (Settles.of_succ ((harguments rest).bind hout))
  | @optionalProperty A ls r x hA _ hx ih =>
    intro rest out hout
    rw [append_assoc]
    refine ih.readChain_goes_on hA (Settles.of_succ ?_)
    have hnext : next? ["(", "["] (x :: rest) = none := by
      refine next?_eq_none (fun s hs => ne_ofString_of_isPlainName hx ?_) rest
      revert s
      decide
    have hstep (f : Nat) : readSuffixes (f + 1) true r ([ofString "?.", x] ++ rest) =
        readSuffixes f true (.member r (.identifier x) false true) rest := by
      change (match next? ["(", "["] (x :: rest) with
        | some (m, rest) => _
        | none => _) = _
      rw [hnext]
      rfl
    simpa only [hstep] using hout
  | optionalIndex hA _ _ ih ihp =>
    intro rest out hout
    simp only [append_assoc, cons_append]
    refine ih.readChain_goes_on hA (Settles.of_succ ?_)
    exact (ihp ("]" :: rest) (ends_cons (by decide))).bind hout
  -- operators: what stands after an operand is none that binds tighter, so that
  -- the operand ends there
  | @trailing ls n op hB hs ih =>
    intro rest _
    obtain ⟨hunary, hupdate⟩ := hB.next?_operator rfl (ofString op :: rest)
    have hends : Ends 1 (ofString op :: rest) :=
      ends_cons (by clear hunary hupdate; revert op; decide)
    refine Settles.of_succ ?_
    simp only [readUnary, append_assoc, singleton_append, hunary, hupdate]
    have hread := (ih _ hends).map (g := fun (n, rest) =>
      match next? updateOperators rest with
      | some (op, rest) => (Node.update op n false, rest)
      | none => (n, rest))
    simpa only [next?_cons updateOperators hs] using hread
  | @leading ls n op hs _ ih =>
    intro rest hrest
    have hunary : next? unaryOperators (ofString op :: (ls ++ rest)) = none :=
      next?_eq_none (by revert op; decide) _
    refine Settles.of_succ ?_
    simp only [readUnary, cons_append, hunary, next?_cons updateOperators hs]
    exact (ih rest hrest).map
  | unary hs _ ih =>
    intro rest hrest
    refine Settles.of_succ ?_
    simp only [readUnary, cons_append, next?_cons unaryOperators hs]
    exact (ih rest hrest).map
  | power _ _ ih ihr =>
    intro rest hrest
    refine Settles.of_succ ?_
    simp only [readPower, append_assoc, cons_append]
    exact (ih _ (ends_cons (by decide))).bind (ihr rest hrest).map
  | @binary A B ls ms l r op hs hAB _ _ ih ihr =>
    have hjoin : A.join (ofString op) l r = .binary op l r := by
      rw [join, if_neg (by rw [List.isEmpty_iff]; exact List.ne_nil_of_mem hs)]
    rw [← hjoin]
    exact ih.join (.inl hs) hAB ihr
  | @logical A B ls ms l r op hs hAB _ _ ih ihr =>
    have hlevel : A.logicalOperators ≠ [] := ne_nil_of_mem hs
    have hjoin : A.join (ofString op) l r = .logical op l r := by
      revert hlevel
      cases A <;> first | exact fun _ => rfl | exact fun h => absurd rfl h
    rw [← hjoin]
    exact ih.join (.inr hs) hAB ihr
  | coalesce _ hr ih ihr =>
    intro rest out hrest hout
    rw [append_assoc]
    have hor := ihr.passes (A := .logicalOr) (passes_of_isMet (k := 2) rfl) hr
    exact ih _ out (ends_cons (by decide))
      (hor.readOperators_goes_on rfl mem_cons_self hrest hout)
  | conditional _ _ _ iht ihc iha =>
    intro rest hrest
    refine Settles.of_succ ?_
    simp only [readConditional, append_assoc, cons_append]
    refine (iht _ (ends_cons (by decide))).bind ?_
    exact (ihc _ (ends_cons (by decide))).bind (iha rest hrest).map
  | @assignment ls ms l r op hl hs _ ih ihr =>
    intro rest hrest
    -- the target is read as a condition would be, and there is no `?` after it
    have hshort := ih.passes (A := .shortCircuit) (passes_of_isMet (k := 14) rfl) hl
    have hends : Ends 15 (ofString op :: (ms ++ rest)) := ends_cons (by revert op; decide)
    have hleft : Settles (readConditional · (ls ++ ofString op :: (ms ++ rest)))
        (l, ofString op :: (ms ++ rest)) := by
      refine Settles.of_succ ?_
      simp only [readConditional]
      refine (hshort _ (hends.mono (by decide))).bind ?_
      simp only [hends.next?_eq_none ["?"] (by decide)]
      exact Settles.const
    refine Settles.of_succ ?_
    simp only [readAssignment, append_assoc, cons_append]
    refine hleft.bind ?_
    simp only [next?_cons assignmentOperators hs]
    exact (ihr rest hrest).map
  | @sequence parts hlen _ ih =>
    intro rest hrest
    match parts, hlen, ih with
    | p :: q :: parts, _, ih => exact Settles.of_succ (readItems_settles ih hrest).map

/-- The grammar is unambiguous: equal lexemes have equal trees. -/
theorem Derives.unique {n' : Node} (h : Derives .expression ls n) (h' : Derives .expression ls n') :
    n = n' :=
  (Prod.mk.inj ((h.follows [] (ends_nil 17)).unique (h'.follows [] (ends_nil 17)))).1

end Resugar
