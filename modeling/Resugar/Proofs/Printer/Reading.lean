import Resugar.Proofs.Grammar.Reader
import Resugar.Proofs.Printer.Plain

/-!
# Printed expressions read back

The text of a plain expression is read by the grammar as that expression, groups
apart (`Text.Spells`). There is one lemma for every way in which the printer
puts texts together, and one for every position of an operand: where the operand
stands bare, its nonterminal passes on to the one that the grammar asks for; in
parentheses it is a primary expression, which stands anywhere.
-/

namespace Resugar

open List Nonterminal

namespace Text

/-- What an expression begins with, if not with a name. -/
def openers : List CodePoint :=
  ['(', '+', '-',
    '!', '~']

/-- Whether a text begins like an expression. -/
def opensExpression (t : Text) : Bool :=
  t.head?.any fun c => c.isNameStart || openers.contains c

variable {t : Text}

/-- What begins like an expression does so whatever follows. -/
theorem opensExpression_append (h : t.opensExpression = true) (u : Text) :
    (t ++ u).opensExpression = true := by
  cases t with
  | nil => cases h
  | cons c t => exact h

theorem ne_nil_of_opensExpression (h : t.opensExpression = true) : t ≠ [] := by
  rintro rfl
  cases h

theorem opensExpression_of_isPlainName {x : Text} (h : x.isPlainName = true) :
    x.opensExpression = true := by
  cases x with
  | nil => cases h
  | cons c x =>
    rw [isPlainName, Bool.and_eq_true] at h
    simp [opensExpression, h.1]

/-- A text reads as an expression, derived from a nonterminal. -/
def Spells (t : Text) (A : Nonterminal) (e : Node) : Prop :=
  t.opensExpression = true ∧ ∃ ls n, t.Lexes ls ∧ Derives A ls n ∧ n.ungrouped = e.ungrouped

namespace Spells

variable {t u : Text} {A B C : Nonterminal} {e e' : Node}

theorem passes (h : t.Spells B e) (hBA : B.Passes A) : t.Spells A e := by
  obtain ⟨hopen, ls, n, hls, hn, heq⟩ := h
  exact ⟨hopen, ls, n, hls, hn.passes hBA, heq⟩

theorem name {x : Text} (hx : x.isPlainName = true) (hr : x.isReserved = false) :
    x.Spells .primary (.identifier x) :=
  ⟨opensExpression_of_isPlainName hx, [x], .identifier x, lexes_name hx, .name hx hr, rfl⟩

theorem this : (ofString "this").Spells .primary .thisExpr :=
  ⟨rfl, [ofString "this"], .thisExpr, lexes_name (by decide), .this, rfl⟩

theorem parens (h : t.Spells .expression e) : (Text.parens t).Spells .primary e := by
  obtain ⟨-, ls, n, hls, hn, heq⟩ := h
  refine ⟨rfl, _, .parenthesized n, ?_, .group hn, heq⟩
  have := hls.enclosed (ofString "(") (ofString ")") (by decide) (by decide)
  simpa [Text.parens, concat] using this

end Spells

/-! ## Lists of expressions -/

/-- Texts read as expressions that commas can stand between. -/
def SpellAll (ts : List Text) (es : List Node) : Prop :=
  List.Forall₂ (fun t e => t.Spells .assignment e) ts es

theorem join_cons_cons (sep t u : Text) (ts : List Text) :
    join sep (t :: u :: ts) = t ++ (sep ++ join sep (u :: ts)) := by
  simp [join, intercalate, intersperse]

theorem lexes_nil : Lexes [] [] := by
  intro rest _
  rw [nil_append]
  exact Option.map_id'.symm

/-- Texts between commas have the lexemes of expressions between commas. -/
theorem SpellAll.lexes {ts : List Text} {es : List Node} (h : SpellAll ts es) :
    ∃ parts : List (List Text × Node), (∀ p ∈ parts, Derives .assignment p.1 p.2) ∧
      (join (ofString ", ") ts).Lexes (commas (parts.map (·.1))) ∧
        (parts.map (·.2)).map Node.ungrouped = es.map Node.ungrouped := by
  induction h with
  | nil => exact ⟨[], by simp, lexes_nil, rfl⟩
  | @cons t e ts es ht hts ih =>
    obtain ⟨-, ls, n, hls, hn, heq⟩ := ht
    obtain ⟨parts, hparts, hlex, hnodes⟩ := ih
    refine ⟨(ls, n) :: parts, forall_mem_cons.2 ⟨hn, hparts⟩, ?_, by simp [heq, hnodes]⟩
    cases hts with
    | nil =>
      obtain rfl : parts = [] := by simpa using hnodes
      simpa [join, commas, intercalate] using hls
    | cons hu hts =>
      cases parts with
      | nil => simp at hnodes
      | cons p parts =>
        rw [map_cons, map_cons, commas_cons_cons, join_cons_cons]
        have hcomma : IsMark (ofString ",") := by decide
        exact hls.append (hlex.blank (.inr hcomma)) fun rest _ => by
          rw [append_assoc]
          exact hcomma.stopsName _

/-- Arguments in parentheses after a text. -/
theorem SpellAll.spells_tuple {ts : List Text} {as : List Node} (h : SpellAll ts as)
    {ls : List Text} (hopen : t.opensExpression = true) (hls : t.Lexes ls) {A : Nonterminal}
    {e : Node} (node : List Node → Node)
    (hnode : ∀ as', as'.map Node.ungrouped = as.map Node.ungrouped →
      (node as').ungrouped = e.ungrouped)
    (hderives : ∀ (parts : List (List Text × Node)) (ms : List Text),
      (∀ p ∈ parts, Derives .assignment p.1 p.2) → IsTuple (parts.map (·.1)) ms →
      Derives A (ls ++ ms) (node (parts.map (·.2)))) : (t ++ tuple ts).Spells A e := by
  obtain ⟨parts, hparts, hlex, hnodes⟩ := h.lexes
  refine ⟨opensExpression_append hopen _, _, _, ?_,
    hderives parts _ hparts (.inl rfl), hnode _ hnodes⟩
  have htuple := hlex.enclosed (ofString "(") (ofString ")") (by decide) (by decide)
  have := hls.append htuple fun rest _ => by
    rw [append_assoc]
    exact IsMark.stopsName (by decide) _
  simpa [tuple, Text.parens, concat] using this

/-! ## Members, calls and operators -/

namespace Spells

variable {t u v : Text} {A B C : Nonterminal} {e l r c a : Node} {ts : List Text} {as : List Node}
  {op : String}

/-- A property can be taken of what members can be taken of. -/
theorem property {x : Text} (ht : t.Spells A r) (hA : A ∈ Nonterminal.chains)
    (hx : x.isPlainName = true) :
    (concat [t, ".", x]).Spells A (.member r (.identifier x) false false) := by
  obtain ⟨hopen, ls, n, hls, hn, heq⟩ := ht
  have hdot : IsMark (ofString ".") := by decide
  have hproperty : Lexes (ofString "." ++ x) [ofString ".", x] := by
    refine (lexes_name hx).mark_append hdot
      (ne_nil_of_opensExpression (opensExpression_of_isPlainName hx)) ?_
    intro d hd
    refine extendsMark_eq_false (.inl ?_) _
    cases x with
    | nil => cases hx
    | cons d' x =>
      cases hd
      rw [isPlainName, Bool.and_eq_true] at hx
      rw [CodePoint.isPlainPart, hx.1, Bool.true_or]
  refine ⟨opensExpression_append hopen _, _, _, ?_, .property hA hn hx, by simp [heq]⟩
  have := hls.append hproperty fun rest _ => by
    rw [append_assoc]
    exact hdot.stopsName _
  simpa [concat] using this

/-- So can a computed one. -/
theorem index (ht : t.Spells A r) (hA : A ∈ Nonterminal.chains) (hu : u.Spells .expression e) :
    (concat [t, "[", u, "]"]).Spells A (.member r e true false) := by
  obtain ⟨hopen, ls, n, hls, hn, heq⟩ := ht
  obtain ⟨-, ms, m, hms, hm, heq'⟩ := hu
  refine ⟨opensExpression_append hopen _, _, _, ?_, .index hA hn hm, by simp [heq, heq']⟩
  have hindex := hms.enclosed (ofString "[") (ofString "]") (by decide) (by decide)
  have := hls.append hindex fun rest _ => by
    rw [append_assoc]
    exact IsMark.stopsName (by decide) _
  simpa [concat] using this

/-- Arguments after a member make a call. -/
theorem call (ht : t.Spells .member c) (hts : SpellAll ts as) :
    (t ++ tuple ts).Spells .call (.call c as false) := by
  obtain ⟨hopen, ls, n, hls, hn, heq⟩ := ht
  exact hts.spells_tuple hopen hls (.call n · false) (fun as' has => by simp [heq, has])
    fun _ _ hparts hms => .callMember hn hparts hms

theorem callAgain (ht : t.Spells A c) (hA : A ∈ [Nonterminal.call, .optionalChain])
    (hts : SpellAll ts as) : (t ++ tuple ts).Spells A (.call c as false) := by
  obtain ⟨hopen, ls, n, hls, hn, heq⟩ := ht
  exact hts.spells_tuple hopen hls (.call n · false) (fun as' has => by simp [heq, has])
    fun _ _ hparts hms => .callAgain hA hn hparts hms

/-- Arguments after `?.` make an optional call. -/
theorem optionalCall (ht : t.Spells A c) (hA : A ∈ Nonterminal.chains) (hts : SpellAll ts as) :
    (t ++ (ofString "?." ++ tuple ts)).Spells .optionalChain (.call c as true) := by
  obtain ⟨hopen, ls, n, hls, hn, heq⟩ := ht
  have hmark : IsClosedMark (ofString "?.") := by decide
  have hlead := hls.append hmark.lexes fun rest _ => hmark.1.stopsName rest
  rw [← append_assoc]
  refine hts.spells_tuple (opensExpression_append hopen _) hlead (.call n · true)
    (fun as' has => by simp [heq, has]) ?_
  intro parts ms hparts hms
  rw [append_assoc]
  exact .optionalCall hA hn hparts hms

theorem newExpr (ht : t.Spells .member c) (hts : SpellAll ts as) :
    (concat ["new ", t, tuple ts]).Spells .member (.newExpr c as) := by
  obtain ⟨-, ls, n, hls, hn, heq⟩ := ht
  have hnew : Lexes (ofString "new" ++ CodePoint.ofChar ' ' :: t) (ofString "new" :: ls) :=
    hls.blank (by decide)
  simp only [concat, flatten_cons, flatten_nil, append_nil]
  exact hts.spells_tuple rfl hnew (.newExpr n) (fun as' has => by simp [heq, has])
    fun _ _ hparts hms => .newArguments hn hparts hms

/-- Two operands with an operator between them. -/
theorem joined {op : Text} (ht : t.Spells A l) (hop : IsOperator op) (hu : u.Spells B r)
    (node : Node → Node → Node) (hnode : ∀ l' r', l'.ungrouped = l.ungrouped →
      r'.ungrouped = r.ungrouped → (node l' r').ungrouped = e.ungrouped)
    (hderives : ∀ ls ms l' r', Derives A ls l' → Derives B ms r' →
      Derives C (ls ++ op :: ms) (node l' r')) : (concat [t, " ", op, " ", u]).Spells C e := by
  obtain ⟨hopen, ls, n, hls, hn, heq⟩ := ht
  obtain ⟨-, ms, m, hms, hm, heq'⟩ := hu
  refine ⟨opensExpression_append hopen _, _, _, ?_, hderives _ _ _ _ hn hm, hnode _ _ heq heq'⟩
  simp only [concat, flatten_cons, flatten_nil, append_nil]
  exact hls.spaced hop hms

/-- A condition with its two branches reads as a conditional expression. -/
theorem conditional (ht : t.Spells .shortCircuit e) (hu : u.Spells .assignment c)
    (hv : v.Spells .assignment a) :
    (concat [t, " ? ", u, " : ", v]).Spells .conditional (.conditional e c a) := by
  obtain ⟨hopen, ls, n, hls, hn, heq⟩ := ht
  obtain ⟨-, ms, m, hms, hm, heq'⟩ := hu
  obtain ⟨-, ks, k, hks, hk, heq''⟩ := hv
  refine ⟨opensExpression_append hopen _, _, _, ?_, .conditional hn hm hk,
    by simp [heq, heq', heq'']⟩
  simp only [concat, flatten_cons, flatten_nil, append_nil]
  exact hls.spaced (l := ofString "?") (by decide) (hms.spaced (l := ofString ":") (by decide) hks)

/-- An update with its operator before it. -/
theorem leading (hop : op ∈ updateOperators) (ht : t.Spells .unary e) :
    (ofString op ++ t).Spells .update (.update op e true) := by
  obtain ⟨hopen, ls, n, hls, hn, heq⟩ := ht
  have hmark : IsClosedMark (ofString op) ∧ opensExpression (ofString op) = true := by
    revert op
    decide
  refine ⟨opensExpression_append hmark.2 _, _, _, ?_, .leading hop hn, by simp [heq]⟩
  exact hls.mark_append hmark.1.1 (ne_nil_of_opensExpression hopen) fun c _ =>
    hmark.1.extendsMark_eq_false c

/-- An update with its operator after it. -/
theorem trailing (hop : op ∈ updateOperators) (ht : t.Spells .leftHandSide e) :
    (t ++ ofString op).Spells .update (.update op e false) := by
  obtain ⟨hopen, ls, n, hls, hn, heq⟩ := ht
  have hmark : IsClosedMark (ofString op) := by
    revert op
    decide
  refine ⟨opensExpression_append hopen _, _, _, ?_, .trailing hn hop, by simp [heq]⟩
  exact hls.append hmark.lexes fun rest _ => hmark.1.stopsName rest

/-- Nothing that opens an expression makes an operator longer, but for a sign
    before the same sign. -/
theorem unaryOperators_apart (hop : op ∈ unaryOperators) :
    (ofString op).getLast?.any CodePoint.isLetter = true ∨ IsMark (ofString op) ∧ ∀ c ∈ openers,
      extendsMark (ofString op) c = true →
      (ofString op == ofString "+" || ofString op == ofString "-") = true ∧ ofString op = [c] := by
  have hall : (unaryOperators.all fun op => (ofString op).getLast?.any CodePoint.isLetter ||
      decide (IsMark (ofString op)) && openers.all fun c => !extendsMark (ofString op) c ||
      (ofString op == ofString "+" || ofString op == ofString "-") && ofString op == [c]) =
        true := by
    decide
  simpa only [Bool.or_eq_true, Bool.and_eq_true, decide_eq_true_eq, all_eq_true, beq_iff_eq,
    Bool.not_eq_true', imp_iff_not_or, Bool.not_eq_true] using all_eq_true.1 hall op hop

/-- No operator runs into the operand after it, as a sign before the same sign
    is set apart by a blank. -/
theorem unary (hop : op ∈ unaryOperators) (ht : t.Spells .unary e) :
    ∃ s, Node.printUnary op t = .ok s ∧ s.Spells .unary (.unary op e) := by
  obtain ⟨hopen, ls, n, hls, hn, heq⟩ := ht
  have hfirst : opensExpression (ofString op) = true ∧ IsOperator (ofString op) := by
    revert op
    decide
  have hapart := unaryOperators_apart hop
  rw [Node.printUnary]
  cases hlast : (ofString op).getLast? with
  | none => exact absurd (getLast?_eq_none_iff.1 hlast) (ne_nil_of_opensExpression hfirst.1)
  | some last =>
    rw [hlast, Option.any_some] at hapart
    refine ⟨_, rfl, opensExpression_append hfirst.1 _, _, .unary op n, ?_,
      .unary hop hn, by simp [heq]⟩
    simp only [concat, flatten_cons, flatten_nil, append_nil]
    split
    next => exact hls.blank hfirst.2
    next hblank =>
      simp only [Bool.or_eq_true, Bool.and_eq_true, not_or, not_and] at hblank
      -- what could make the operator longer is only the same sign, and a blank
      -- would set it apart
      obtain ⟨hmark, hopeners⟩ := hapart.resolve_left hblank.1
      refine hls.mark_append hmark (ne_nil_of_opensExpression hopen) fun c hc => ?_
      obtain ⟨t, rfl⟩ := head?_eq_some_iff.1 hc
      rw [opensExpression, head?_cons, Option.any_some, Bool.or_eq_true,
        contains_iff_mem] at hopen
      rcases hopen with hname | hc
      · exact extendsMark_eq_false (.inl (by rw [CodePoint.isPlainPart, hname, Bool.true_or])) _
      · by_contra hext
        obtain ⟨hsign, heq⟩ := hopeners c hc (Bool.not_eq_false _ ▸ hext)
        refine hblank.2 (Bool.or_eq_true _ _ ▸ hsign) ?_
        rw [startsWith, heq]
        exact List.isPrefixOf_iff_prefix.2 ⟨t, rfl⟩

end Spells

end Text

namespace Node

/-! ## Operands -/

/-- Something is printed, and reads as an expression. -/
def Reads (printed : Printed) (A : Nonterminal) (e : Node) : Prop :=
  ∃ t, printed = .ok t ∧ t.Spells A e

/-- Whether an operand of precedence `own` is in parentheses, by numbers. -/
def isBracketed (own outer : Nat) (side : Side) (groupsRight : Bool) : Bool :=
  if own = outer ∧ 3 ≤ own ∧ own ≤ 16 then
    if groupsRight || own = 4 then side == .left else side == .right
  else own < outer

/-- Whether an operand stands in parentheses can be told by the numbers. -/
theorem Rank.needsParens_eq {e : Node} {p : Nat} (h : Rank e p) (outer : Nat)
    (side : Side) (op : Option Text) :
    e.needsParens p outer side op = isBracketed p outer side (op.any groupsRight) := by
  simp only [Node.needsParens, isBracketed, h.isInfix, h.isConditional,
    decide_eq_true_eq, Bool.or_eq_true]

/-- The precedences of plain expressions. -/
def ranks : List Nat :=
  [1, 3, 4, 5, 6, 7, 8, 9, 10, 11, 12, 13, 14, 15, 16, 17, 18, 19, 20]

theorem Rank.mem_ranks {e : Node} {p : Nat} (h : Rank e p) : p ∈ ranks := by
  have := h.bounds
  simp only [ranks, mem_cons, not_mem_nil, or_false]
  omega

theorem passes_expression {p : Nat} (h : p ∈ ranks) : (level p).Passes .expression := by
  have hall : ∀ p ∈ ranks, isMet .expression 20 (level p) = true := by decide
  exact passes_of_isMet (hall p h)

variable {e : Node} {p : Nat} {A : Nonterminal} {op : String}

/-- In parentheses if need be, an expression stands wherever a primary
    expression does. -/
theorem Reads.parensIf (h : Reads e.print e.nonterminal e) (hr : Rank e p) (needed : Bool)
    (hparens : needed = true → Nonterminal.Passes .primary A)
    (hbare : needed = false → e.nonterminal.Passes A) :
    Reads (do return Text.parensIf needed (← e.print)) A e := by
  obtain ⟨t, ht, hspells⟩ := h
  refine ⟨Text.parensIf needed t, by rw [ht]; rfl, ?_⟩
  cases needed with
  | true =>
    exact (hspells.passes (hr.passes.trans
      (passes_expression hr.mem_ranks))).parens.passes (hparens rfl)
  | false => exact hspells.passes (hbare rfl)

/-- Whether all operands of a position, but for some precedences, are bare only
    where the grammar takes them. -/
def fits (A : Nonterminal) (outer : Nat) (side : Side) (groupsRight : Bool) (exempt : Nat → Bool) :
    Bool :=
  A.isMet 20 .primary && ranks.all fun p => exempt p ||
    isBracketed p outer side groupsRight || A.isMet 20 (level p)

/-- An operand reads as its position asks, in parentheses where the grammar does
    not take it bare. -/
theorem Reads.operand (h : Reads e.print e.nonterminal e) (hr : Rank e p) (A : Nonterminal)
    (outer : Nat) (side : Side) (op : Option Text) (exempt : Nat → Bool)
    (hexempt : exempt p = false) (hfits : fits A outer side (op.any groupsRight) exempt = true) :
    Reads (e.operand e.print outer side op) A e := by
  rw [fits, Bool.and_eq_true, all_eq_true] at hfits
  rw [Node.operand, hr.precedence]
  refine h.parensIf hr _ (fun _ => passes_of_isMet hfits.1)
    fun hneeded => hr.passes.trans ?_
  have hp := hfits.2 p hr.mem_ranks
  rw [hexempt, ← hr.needsParens_eq, hneeded, Bool.false_or, Bool.false_or] at hp
  exact passes_of_isMet hp

/-- Between commas an expression reads as an assignment expression. -/
theorem Reads.listItem (h : Reads e.print e.nonterminal e) (hr : Rank e p) :
    Reads (e.listItem e.print) .assignment e := by
  rw [Node.listItem, hr.precedence]
  refine h.parensIf hr _ (fun _ => passes_of_isMet (k := 20) rfl)
    fun hneeded => hr.passes.trans ?_
  have hall : ∀ p ∈ ranks, 2 ≤ p → isMet .assignment 20 (level p) = true := by decide
  exact passes_of_isMet
    (hall p hr.mem_ranks (Nat.le_of_not_lt (of_decide_eq_false hneeded)))

/-- Arguments are printed, and read as such. -/
theorem reads_items {es : List Node} (hplain : ∀ e ∈ es, e.IsPlain)
    (h : ∀ e ∈ es, Reads e.print e.nonterminal e) :
    ∃ ts, ((printList es).mapM fun (n, t) => n.listItem t) = .ok ts ∧ Text.SpellAll ts es := by
  induction es with
  | nil => exact ⟨[], rfl, .nil⟩
  | cons e es ih =>
    obtain ⟨p, hr⟩ := (hplain e (mem_cons_self ..)).rank
    obtain ⟨t, ht, hspells⟩ := (h e (mem_cons_self ..)).listItem hr
    obtain ⟨ts, hts, hall⟩ := ih (fun e he => hplain e (mem_cons_of_mem _ he))
      fun e he => h e (mem_cons_of_mem _ he)
    refine ⟨t :: ts, ?_, .cons hspells hall⟩
    rw [printList, mapM_cons, hts]
    dsimp only
    rw [ht]
    rfl

/-! ## Operators -/

attribute [local simp] print

/-- The operators of a precedence are those of its nonterminal, and the operand
    on the right binds more tightly. -/
theorem binary_level (h : op ∈ binaryOperators) :
    op = "**" ∨ ∃ k, operatorPrecedence? op = some k ∧ op ∈ (level k).operators ∧
      level (k + 1) ∈ (level k).units ∧ fits (level k) k .left (groupsRight op) (fun _ => false) =
        true ∧ fits (level (k + 1)) k .right (groupsRight op) (fun _ => false) = true ∧
      (Text.ofString op == "**") = false := by
  have hall : ∀ op ∈ binaryOperators, op = "**" ∨ ((operatorPrecedence? op).any fun k =>
      decide (op ∈ (level k).operators) && decide (level (k + 1) ∈ (level k).units) &&
        fits (level k) k .left (groupsRight op) (fun _ => false) &&
          fits (level (k + 1)) k .right (groupsRight op) (fun _ => false) &&
            !(Text.ofString op == "**")) = true := by decide
  refine (hall op h).imp_right fun hop => ?_
  obtain ⟨k, hk, hop⟩ := (Option.any_eq_true _ _).1 hop
  simp only [Bool.and_eq_true, decide_eq_true_eq, Bool.not_eq_true'] at hop
  obtain ⟨⟨⟨⟨hmem, hunit⟩, hleft⟩, hright⟩, hpower⟩ := hop
  exact ⟨k, hk, hmem, hunit, hleft, hright, hpower⟩

theorem isOperator_of_mem (h : op ∈ binaryOperators ++ logicalOperators ++ assignmentOperators) :
    (Text.ofString op).IsOperator := by
  revert op
  decide

variable {l r : Node} {q : Nat}

/-- A power reads as one, as a unary operand stands in parentheses. -/
theorem Reads.power (hl : Reads l.print l.nonterminal l) (hlr : Rank l p)
    (hr : Reads r.print r.nonterminal r) (hrr : Rank r q) :
    Reads (binary "**" l r).print .exponentiation (binary "**" l r) := by
  have hprec : (operatorPrecedence? "**").getD 0 = 16 := rfl
  obtain ⟨u, hu, huspells⟩ :=
    hr.operand hrr .exponentiation 16 .right "**" (fun _ => false) rfl (by decide)
  have hjoined : ∀ t : Text, t.Spells .update l →
      (Text.concat [t, " ", "**", " ", u]).Spells
      .exponentiation (.binary "**" l r) := fun t ht =>
    ht.joined (isOperator_of_mem (by decide)) huspells (.binary "**")
      (fun l' r' hl hr => by simp [hl, hr]) fun _ _ _ _ hl hr => .power hl hr
  rw [print, beq_self_eq_true, Bool.true_and, hprec, hu]
  cases hunary : l.isUnary with
  | true =>
    -- whatever its precedence, a unary operand on the left stands in parentheses
    obtain ⟨t, ht, hspells⟩ := hl
    refine ⟨_, by rw [ht]; rfl, hjoined _ ?_⟩
    exact (hspells.passes (hlr.passes.trans (passes_expression hlr.mem_ranks))).parens.passes
      (passes_of_isMet (k := 5) rfl)
  | false =>
    obtain ⟨t, ht, hspells⟩ := hl.operand hlr .update 16 .left "**" (fun p => p = 17)
      (hlr.isUnary ▸ hunary) (by decide)
    exact ⟨_, by rw [ht]; rfl, hjoined t hspells⟩

/-- A binary expression reads as one, its operands grouped as they were. -/
theorem Reads.binary (hl : Reads l.print l.nonterminal l) (hlr : Rank l p)
    (hr : Reads r.print r.nonterminal r) (hrr : Rank r q) (hop : op ∈ binaryOperators) :
    Reads (binary op l r).print (binary op l r).nonterminal (binary op l r) := by
  have hoperator : (Text.ofString op).IsOperator := isOperator_of_mem (by simp [hop])
  rcases binary_level hop with rfl | ⟨k, hprec, hmem, hunit, hleft, hright, hpower⟩
  · exact hl.power hlr hr hrr
  · obtain ⟨t, ht, htspells⟩ := hl.operand hlr (level k) k .left op _ rfl hleft
    obtain ⟨u, hu, huspells⟩ := hr.operand hrr (level (k + 1)) k .right op _ rfl hright
    refine ⟨Text.concat [t, " ", op, " ", u], ?_, ?_⟩
    · rw [print, hprec, hpower, Bool.false_and, Option.getD_some, if_neg Bool.false_ne_true, ht, hu]
      rfl
    · rw [nonterminal, hprec]
      exact htspells.joined hoperator huspells (.binary op) (fun l' r' hl hr => by simp [hl, hr])
        fun _ _ _ _ hl hr => .binary hmem hunit hl hr

/-- A logical operator, but for `??`, is that of its precedence's nonterminal.
    Operands that mix `??` with another one stand in parentheses. -/
theorem logical_level (h : op ∈ logicalOperators) :
    ∃ k A B, operatorPrecedence? op = some k ∧
      fits A k .left (groupsRight op)
      (fun p => 5 ≤ p && p ≤ 7 && ((Text.ofString op == "??") != decide (p = 5))) =
        true ∧ fits B k .right (groupsRight op)
      (fun p => 5 ≤ p && p ≤ 7 && ((Text.ofString op == "??") != decide (p = 5))) =
        true ∧ ∀ ls ms l r, Derives A ls l → Derives B ms r →
      Derives (level k) (ls ++ Text.ofString op :: ms) (.logical op l r) := by
  simp only [logicalOperators, mem_cons, not_mem_nil, or_false] at h
  rcases h with rfl | rfl | rfl
  · exact ⟨7, .logicalAnd, .bitwiseOr, rfl, by decide, by decide,
      fun _ _ _ _ hl hr => .logical (by decide) (by decide) hl hr⟩
  · exact ⟨6, .logicalOr, .logicalAnd, rfl, by decide, by decide,
      fun _ _ _ _ hl hr => .logical (by decide) (by decide) hl hr⟩
  · exact ⟨5, .coalesceHead, .bitwiseOr, rfl,
      by decide, by decide, fun _ _ _ _ hl hr => .coalesce hl hr⟩

/-- An operand of a logical operator reads as its position asks, as `??` is not
    mixed with the others. -/
theorem Reads.logicalOperand (h : Reads e.print e.nonterminal e) (hr : Rank e p) {outer : Nat}
    {side : Side} {op : Text} (hfits : fits A outer side (groupsRight op)
      (fun p => 5 ≤ p && p ≤ 7 && ((op == "??") != decide (p = 5))) = true) :
    Reads (e.logicalOperand e.print op outer side) A e := by
  have hmixes : e.mixesNullish op =
      (5 ≤ p && p ≤ 7 && ((op == "??") != decide (p = 5))) := by
    rw [hr.mixesNullish, Bool.decide_and]
  rw [Node.logicalOperand]
  split
  next =>
    exact h.parensIf hr true (fun _ =>
      passes_of_isMet (Bool.and_eq_true_iff.1 hfits).1) nofun
  next hneeded => exact h.operand hr A outer side op _ (hmixes ▸ Bool.not_eq_true _ ▸ hneeded) hfits

/-- A logical expression reads as one. -/
theorem Reads.logical (hl : Reads l.print l.nonterminal l) (hlr : Rank l p)
    (hr : Reads r.print r.nonterminal r) (hrr : Rank r q) (hop : op ∈ logicalOperators) :
    Reads (logical op l r).print (logical op l r).nonterminal (logical op l r) := by
  obtain ⟨k, A, B, hprec, hleft, hright, hderives⟩ := logical_level hop
  obtain ⟨t, ht, htspells⟩ := hl.logicalOperand hlr hleft
  obtain ⟨u, hu, huspells⟩ := hr.logicalOperand hrr hright
  have hown : (Node.logical op l r).precedence = .ok k := by rw [Node.precedence, hprec]
  refine ⟨Text.concat [t, " ", op, " ", u], ?_, ?_⟩
  · rw [print, hown]
    simp only [bind, Except.bind, ht, hu]
    rfl
  · rw [nonterminal, hprec]
    exact htspells.joined (isOperator_of_mem (by simp [hop])) huspells (.logical op)
      (fun l' r' hl hr => by simp [hl, hr]) hderives

theorem Reads.unary (h : Reads e.print e.nonterminal e) (hr : Rank e p)
    (hop : op ∈ unaryOperators) : Reads (unary op e).print .unary (unary op e) := by
  obtain ⟨t, ht, hspells⟩ := h.operand hr .unary 17 .right none (fun _ => false) rfl (by decide)
  rw [print, ht]
  exact hspells.unary hop

/-- A target is a name or a member, which take no parentheses. -/
theorem Rank.of_isTarget (hr : Rank e p) (h : e.isTarget = true) :
    p = 20 ∧ e.isObjectPattern = false := by
  have hp := hr.precedence
  cases e with
  | identifier | member => exact ⟨(Except.ok.inj hp).symm, rfl⟩
  | _ => cases h

/-- An update reads as one, since its operand can be assigned to. -/
theorem Reads.update (h : Reads e.print e.nonterminal e) (hr : Rank e p)
    (hop : op ∈ updateOperators) (htarget : e.isTarget = true) (leading : Bool) :
    Reads (update op e leading).print .update (update op e leading) := by
  obtain ⟨rfl, -⟩ := hr.of_isTarget htarget
  obtain ⟨t, ht, hspells⟩ :=
    h.operand hr .leftHandSide 18 .right none (fun p => p ≠ 20) rfl (by decide)
  rw [print, ht]
  refine ⟨_, rfl, ?_⟩
  cases leading with
  | true => exact (hspells.passes (passes_of_isMet (k := 2) rfl)).leading hop
  | false => exact hspells.trailing hop

/-- A conditional expression reads as one. -/
theorem Reads.conditional {c a : Node} {p' : Nat} (he : Reads e.print e.nonterminal e)
    (her : Rank e p) (hc : Reads c.print c.nonterminal c) (hcr : Rank c q)
    (ha : Reads a.print a.nonterminal a) (har : Rank a p') :
    Reads (conditional e c a).print .conditional (conditional e c a) := by
  obtain ⟨t, ht, htspells⟩ :=
    he.operand her .shortCircuit 5 .left none (fun _ => false) rfl (by decide)
  obtain ⟨u, hu, huspells⟩ :=
    hc.operand hcr .assignment 3 .right none (fun _ => false) rfl (by decide)
  obtain ⟨v, hv, hvspells⟩ :=
    ha.operand har .assignment 3 .right none (fun _ => false) rfl (by decide)
  rw [print, ht, hu, hv]
  exact ⟨_, rfl, htspells.conditional huspells hvspells⟩

/-- An assignment reads as one, since its left side can be assigned to. -/
theorem Reads.assignment (hl : Reads l.print l.nonterminal l) (hlr : Rank l p)
    (hr : Reads r.print r.nonterminal r) (hrr : Rank r q) (hop : op ∈ assignmentOperators)
    (htarget : l.isTarget = true) :
    Reads (assignment op l r).print .assignment (assignment op l r) := by
  obtain ⟨rfl, hpattern⟩ := hlr.of_isTarget htarget
  obtain ⟨t, ht, htspells⟩ := hl
  have hfits : ∀ right, fits .assignment 3 .right right (fun _ => false) = true := by decide
  obtain ⟨u, hu, huspells⟩ := hr.operand hrr .assignment 3 .right op _ rfl (hfits _)
  rw [print, ht, hu, hpattern]
  exact ⟨_, rfl, (htspells.passes hlr.passes).joined
    (isOperator_of_mem (by simp [hop])) huspells (.assignment op)
    (fun l' r' hl hr => by simp [hl, hr]) fun _ _ _ _ hl hr => .assignment hl hop hr⟩

/-! ## Members and calls -/

/-- What members and calls are taken of stands bare if it is a chain itself. -/
theorem IsPlain.passes_chain (h : e.IsPlain) (hr : Rank e p) (hp : 19 ≤ p) :
    e.nonterminal.Passes e.chain := by
  have hprecedence := hr.precedence
  have hinfix := hr.isInfix
  cases h with
  | property _ _ | index _ _ | call _ _ | newExpr _ _ => exact .refl _
  | name _ _ | this | group _ => exact passes_of_isMet (k := 1) rfl
  | update _ _ _ | unary _ _ | sequence _ _ =>
    cases hprecedence
    omega
  | binary _ _ _ | logical _ _ _ | conditional _ _ _ | assignment _ _ _ _ =>
    have := of_decide_eq_true hinfix.symm
    omega

theorem IsPlain.chain_eq (h : e.IsPlain) (hr : Rank e p) (hp : p < 19) : e.chain = .member := by
  have hprecedence := hr.precedence
  cases h with
  | property _ _ | index _ _ | call _ _ =>
    cases hprecedence
    omega
  | _ => rfl

theorem chain_of_not_containsCall (h : e.containsCall = false) : e.chain = .member := by
  fun_induction chain e with
  | case1 r _ _ _ ih => exact ih h
  | case2 | case3 => cases h
  | case4 => rfl

/-- What members are taken of reads as such. -/
theorem Reads.receiver (h : Reads e.print e.nonterminal e) (he : e.IsPlain) (hr : Rank e p) :
    Reads (e.operand e.print 19 .left none) e.chain e := by
  have hneeds : e.needsParens p 19 .left none = decide (p < 19) := by
    rw [hr.needsParens_eq, isBracketed, if_neg (by omega)]
  rw [Node.operand, hr.precedence]
  refine h.parensIf hr _ (fun hneeded => ?_) fun hneeded => ?_
  · rw [he.chain_eq hr (of_decide_eq_true (hneeds ▸ hneeded))]
    exact passes_of_isMet (k := 1) rfl
  · exact he.passes_chain hr (Nat.le_of_not_lt (of_decide_eq_false (hneeds ▸ hneeded)))

/-- The plain expressions can be receivers and callees bare. -/
theorem IsPlain.printReceiver_eq (h : e.IsPlain) (printed : Printed) (computed : Bool) :
    e.printReceiver printed computed = e.operand printed 19 .left none ∧
      e.isFunctionOrClass = false := by
  cases h <;> exact ⟨rfl, rfl⟩

theorem Reads.property {x : Text} (h : Reads e.print e.nonterminal e) (he : e.IsPlain)
    (hr : Rank e p) (hx : x.isPlainName = true) :
    Reads (member e (identifier x) false false).print e.chain
      (member e (identifier x) false false) := by
  obtain ⟨t, ht, hspells⟩ := h.receiver he hr
  rw [print, (he.printReceiver_eq _ _).1, ht]
  exact ⟨_, rfl, hspells.property e.chain_mem hx⟩

theorem Reads.index (hl : Reads l.print l.nonterminal l) (hplain : l.IsPlain) (hlr : Rank l p)
    (hr : Reads r.print r.nonterminal r) (hrr : Rank r q) :
    Reads (member l r true false).print l.chain (member l r true false) := by
  obtain ⟨t, ht, htspells⟩ := hl.receiver hplain hlr
  obtain ⟨u, hu, huspells⟩ := hr
  rw [print, (hplain.printReceiver_eq _ _).1, ht, hu]
  exact ⟨_, rfl, htspells.index l.chain_mem
    (huspells.passes (hrr.passes.trans (passes_expression hrr.mem_ranks)))⟩

variable {as : List Node}

/-- A call reads as one, optional or not. -/
theorem Reads.call (h : Reads e.print e.nonterminal e) (he : e.IsPlain)
    (hr : Rank e p) (hplain : ∀ a ∈ as, a.IsPlain)
    (has : ∀ a ∈ as, Reads a.print a.nonterminal a) (isOptional : Bool) :
    Reads (call e as isOptional).print (call e as isOptional).chain (call e as isOptional) := by
  obtain ⟨t, ht, hspells⟩ := h.receiver he hr
  obtain ⟨ts, hts, hall⟩ := reads_items hplain has
  rw [print, (he.printReceiver_eq (.ok []) false).2, if_neg Bool.false_ne_true, ht, hts]
  refine ⟨_, rfl, ?_⟩
  simp only [Text.concat, flatten_cons, flatten_nil, append_nil]
  cases isOptional with
  | true => exact hspells.optionalCall e.chain_mem hall
  | false =>
    have hchain : e.chain = .member ∨ e.chain ∈ [Nonterminal.call, .optionalChain] :=
      mem_cons.1 e.chain_mem
    rw [chain]
    rcases hchain with hmember | hcall
    · rw [hmember] at hspells ⊢
      exact hspells.call hall
    · have heq : (if false = true ∨
          e.chain = .optionalChain then Nonterminal.optionalChain else .call) = e.chain := by
        rcases mem_pair.1 hcall with h | h <;> rw [h] <;> rfl
      rw [heq]
      exact hspells.callAgain hcall hall

/-- `new` reads with its arguments: a call in a callee is in parentheses. -/
theorem Reads.newExpr (h : Reads e.print e.nonterminal e) (he : e.IsPlain) (hr : Rank e p)
    (hplain : ∀ a ∈ as, a.IsPlain) (has : ∀ a ∈ as, Reads a.print a.nonterminal a) :
    Reads (newExpr e as).print .member (newExpr e as) := by
  obtain ⟨ts, hts, hall⟩ := reads_items hplain has
  obtain ⟨t, ht, hspells⟩ := h.parensIf (A := .member) hr (decide (p < 19) || e.containsCall)
    (fun _ => passes_of_isMet (k := 1) rfl) fun hneeded => by
      rw [Bool.or_eq_false_iff, decide_eq_false_iff_not, Nat.not_lt] at hneeded
      exact chain_of_not_containsCall hneeded.2 ▸ he.passes_chain hr hneeded.1
  obtain ⟨s, hs, -⟩ := h
  rw [hs] at ht
  cases ht
  rw [print, hr.precedence, hs, hts]
  exact ⟨_, rfl, hspells.newExpr hall⟩

/-- Expressions with commas between them read as such. -/
theorem reads_sequence (hlength : 2 ≤ as.length) (hplain : ∀ a ∈ as, a.IsPlain)
    (has : ∀ a ∈ as, Reads a.print a.nonterminal a) :
    Reads (sequence as).print .expression (sequence as) := by
  obtain ⟨ts, hts, hall⟩ := reads_items hplain has
  obtain ⟨parts, hparts, hlex, hnodes⟩ := hall.lexes
  have hparts2 : 2 ≤ parts.length := by
    have := congrArg length hnodes
    simp only [length_map] at this
    omega
  rw [print, hts]
  refine ⟨_, rfl, ?_, _, _, hlex, .sequence hparts2 hparts, by simp [hnodes]⟩
  cases hall with
  | nil => cases hlength
  | cons ht htail =>
    cases htail with
    | nil => simp at hlength
    | cons =>
      rw [Text.join_cons_cons]
      exact Text.opensExpression_append ht.1 _

/-! ## Plain expressions -/

/-- The text of a plain expression spells it. -/
theorem IsPlain.reads (h : e.IsPlain) : Reads e.print e.nonterminal e := by
  induction h with
  | name hx hr =>
    rw [print]
    exact ⟨_, rfl, Text.Spells.name hx hr⟩
  | this =>
    rw [print]
    exact ⟨_, rfl, Text.Spells.this⟩
  | group he ih =>
    obtain ⟨p, hr⟩ := he.rank
    obtain ⟨t, ht, hspells⟩ := ih
    rw [print, ht]
    exact ⟨_, rfl, (hspells.passes (hr.passes.trans (passes_expression hr.mem_ranks))).parens⟩
  | property he hx ih =>
    obtain ⟨p, hr⟩ := he.rank
    exact ih.property he hr hx
  | index hl hr ihl ihr =>
    obtain ⟨p, hlr⟩ := hl.rank
    obtain ⟨q, hrr⟩ := hr.rank
    exact ihl.index hl hlr ihr hrr
  | call hc has ihc ihas =>
    obtain ⟨p, hr⟩ := hc.rank
    exact ihc.call hc hr has ihas _
  | newExpr hc has ihc ihas =>
    obtain ⟨p, hr⟩ := hc.rank
    exact ihc.newExpr hc hr has ihas
  | update hop htarget he ih =>
    obtain ⟨p, hr⟩ := he.rank
    exact ih.update hr hop htarget _
  | unary hop he ih =>
    obtain ⟨p, hr⟩ := he.rank
    exact ih.unary hr hop
  | binary hop hl hr ihl ihr =>
    obtain ⟨p, hlr⟩ := hl.rank
    obtain ⟨q, hrr⟩ := hr.rank
    exact ihl.binary hlr ihr hrr hop
  | logical hop hl hr ihl ihr =>
    obtain ⟨p, hlr⟩ := hl.rank
    obtain ⟨q, hrr⟩ := hr.rank
    exact ihl.logical hlr ihr hrr hop
  | conditional ht hc ha iht ihc iha =>
    obtain ⟨p, htr⟩ := ht.rank
    obtain ⟨q, hcr⟩ := hc.rank
    obtain ⟨p', har⟩ := ha.rank
    exact iht.conditional htr ihc hcr iha har
  | assignment hop htarget hl hr ihl ihr =>
    obtain ⟨p, hlr⟩ := hl.rank
    obtain ⟨q, hrr⟩ := hr.rank
    exact ihl.assignment hlr ihr hrr hop htarget
  | sequence hlength hes ihes => exact reads_sequence hlength hes ihes

/-- The grammar derives the text of a plain expression, groups apart. -/
theorem IsPlain.derives (h : e.IsPlain) :
    ∃ t ls n, e.print = .ok t ∧ t.lexemes = some ls ∧ Derives .expression ls n ∧
      n.ungrouped = e.ungrouped := by
  obtain ⟨p, hr⟩ := h.rank
  obtain ⟨t, ht, hspells⟩ := h.reads
  obtain ⟨-, ls, n, hls, hn, heq⟩ :=
    hspells.passes (hr.passes.trans (passes_expression hr.mem_ranks))
  exact ⟨t, ls, n, ht, hls.lexemes_eq, hn, heq⟩

/-- The text of a plain expression is read by the grammar, and in one way only:
    as the expression itself, groups apart. So plain expressions with the same
    text differ in their groups at most. -/
theorem IsPlain.print_reads_back (h : e.IsPlain) :
    ∃ t ls n, e.print = .ok t ∧ t.lexemes = some ls ∧ Derives .expression ls n ∧
      n.ungrouped = e.ungrouped ∧ (∀ n', Derives .expression ls n' → n' = n) ∧
      ∀ e' : Node, e'.IsPlain → e'.print = e.print → e'.ungrouped = e.ungrouped := by
  obtain ⟨t, ls, n, ht, hls, hn, heq⟩ := h.derives
  refine ⟨t, ls, n, ht, hls, hn, heq, fun n' hn' => hn'.unique hn, fun e' he' hprint => ?_⟩
  obtain ⟨t', ls', n', ht', hls', hn', heq'⟩ := he'.derives
  obtain rfl : t' = t := Except.ok.inj (by rw [← ht', ← ht, hprint])
  obtain rfl : ls' = ls := Option.some.inj (by rw [← hls', ← hls])
  rw [← heq', ← heq, hn'.unique hn]

/-- A unary operand of a power, `||` below `??`, a call below `new` and a
    sequence among arguments. -/
theorem print_reads_back_nested :
    let e := logical "??"
      (logical "||" (binary "**" (unary "-" (unary "-" (identifier "a"))) (identifier "b"))
        thisExpr)
      (newExpr (call (identifier "f") [sequence [identifier "a", identifier "b"]] false) [])
    e.IsPlain ∧ ∃ t ls n, e.print = .ok t ∧ t.lexemes = some ls ∧ Derives .expression ls n ∧
      n.ungrouped = e.ungrouped ∧ (∀ n', Derives .expression ls n' → n' = n) ∧
      ∀ e' : Node, e'.IsPlain → e'.print = e.print → e'.ungrouped = e.ungrouped := by
  intro e
  have ha : IsPlain (identifier "a") := .name (by decide) (by decide)
  have hb : IsPlain (identifier "b") := .name (by decide) (by decide)
  have hf : IsPlain (identifier "f") := .name (by decide) (by decide)
  have hnegated : IsPlain (unary "-" (unary "-" (identifier "a"))) :=
    .unary (by decide) (.unary (by decide) ha)
  have hitems : IsPlain (sequence [identifier "a", identifier "b"]) :=
    .sequence (by decide) (by simp [ha, hb])
  have hcall : IsPlain (call (identifier "f") [sequence [identifier "a", identifier "b"]] false) :=
    .call hf (by simp [hitems])
  have he : e.IsPlain := .logical (by decide)
    (.logical (by decide) (.binary (by decide) hnegated hb) .this) (.newExpr hcall (by simp))
  exact ⟨he, he.print_reads_back⟩

end Node

end Resugar
