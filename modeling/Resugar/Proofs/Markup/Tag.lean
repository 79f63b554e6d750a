import Resugar.Proofs.Concrete.Spelling
import Resugar.Proofs.Markup.Layout
import Resugar.Proofs.Text.TagName

/-!
# What the name of an element stands for

A tag is looked at as a text: it is printed, the quotes around it are taken
away, and what is left is tried as a name. Most kinds of expressions have a mark
in their text that no name holds, or begin as no name does (`Text.Bars`); what
is left is listed by `Node.Shows`.

Two kinds of expressions get through in disguise (`Node.isDisguised`). As `-`
may stand in the name of an element, `createElement(X--)` becomes `<X-- />`. And
`null`, `true` and `false` are told from names only where no dot follows them,
so that `createElement(null.x)` becomes `<null.x />`.
-/

namespace Resugar

open Node List
open Text (ofString)

/-! ## Texts that are refused -/

/-- No name begins with a digit. -/
theorem CodePoint.not_isNameStart_of_isAsciiDigit {c : CodePoint} (h : c.isAsciiDigit = true) :
    (!Text.isQuote c && !c.isNameStart) = true := by
  have hne (d : Char) (hd : (ofChar d).isAsciiDigit = false) : (c == ofChar d) = false := by
    refine beq_eq_false_iff_ne.2 ?_
    rintro rfl
    rw [hd] at h
    cases h
  have hletter : c.isAsciiLetter = false := by
    simp only [isAsciiDigit, isAsciiLetter, Bool.and_eq_true, Bool.or_eq_false_iff,
      Bool.and_eq_false_iff, decide_eq_true_eq, decide_eq_false_iff_not] at h ⊢
    omega
  rw [Text.isQuote, isNameStart, hne '"' rfl, hne '\'' rfl, hletter, hne '_' rfl, hne '$' rfl]
  rfl

namespace Text

/-- Whether a text holds a code point that is foreign to names. -/
def isForeign (t : Text) : Bool :=
  t.any CodePoint.isForeign

/-- A text that begins no name of an element: foreign, or begun as none. -/
def Bars (t : Text) : Prop :=
  t.isForeign = true ∨ t.head?.any (fun c => !isQuote c && !c.isNameStart) = true

variable {t : Text}

theorem Bars.append (h : t.Bars) (u : Text) : (t ++ u).Bars := by
  obtain h | h := h
  · left
    rw [isForeign, any_append, ← isForeign, h, Bool.true_or]
  · right
    cases t with
    | nil => cases h
    | cons c t => exact h

theorem Bars.isTagName_unquote (h : t.Bars) : t.unquote.isTagName = false := by
  obtain h | h := h
  · obtain ⟨c, hc, hforeign⟩ := any_eq_true.1 h
    exact isTagName_unquote_of_isForeign hc hforeign
  · obtain ⟨c, hc, h⟩ := (Option.any_eq_true _ _).1 h
    simp only [Bool.and_eq_true, Bool.not_eq_true'] at h
    exact isTagName_unquote_of_head hc h.1 h.2

/-- What is put together from a foreign text and others is foreign. -/
theorem isForeign_concat {p : Text} {ps : List Text} (hp : p ∈ ps) (h : p.isForeign = true) :
    (concat ps).isForeign = true := by
  rw [isForeign, concat, any_flatten]
  exact any_eq_true.2 ⟨p, hp, h⟩

theorem isForeign_parens (t : Text) : (parens t).isForeign = true :=
  isForeign_concat (p := "(") (by simp) rfl

theorem isForeign_bracedList (ts : List Text) : (bracedList ts).isForeign = true := by
  unfold bracedList
  split
  · rfl
  · exact isForeign_concat (p := "\x7b ") (by simp) rfl

theorem isForeign_join {ts : List Text} (h : 2 ≤ ts.length) : (join ", " ts).isForeign = true := by
  obtain _ | ⟨a, _ | ⟨b, ts⟩⟩ := ts
  · exact absurd h (by simp)
  · exact absurd h (by simp)
  · exact isForeign_concat (p := ", ") (by simp) rfl

end Text

/-! ## The texts of expressions -/

/-- Expressions that are put together from others have marks in their text that
    are foreign to names. -/
theorem Node.isForeign_of_isComposite {n : Node} (h : n.isComposite = true) :
    AllOk (fun t => t.isForeign = true) n.print := by
  have hconcat {p : Text} {ps : List Text} (hp : p ∈ ps) (h : p.isForeign = true) : AllOk
      (fun t => t.isForeign = true) (.ok (Text.concat ps)) := allOk_ok (Text.isForeign_concat hp h)
  have htuple (ts : List Text) : (Text.tuple ts).isForeign = true := Text.isForeign_parens _
  -- for every kind of expression, a piece of the text that no name has
  unfold isComposite at h
  split at h
  all_goals first | rw [print] | cases h
  · exact allOk_bind fun _ _ => hconcat (p := "\x60") (by simp) rfl
  · exact allOk_bind fun _ _ => hconcat (p := "[") (by simp) rfl
  · exact allOk_bind fun _ _ => allOk_ok (Text.isForeign_bracedList _)
  · dsimp only
    split <;> repeat refine allOk_bind fun _ _ => ?_
    all_goals exact hconcat (p := " ") (by simp) rfl
  · refine allOk_bind fun _ _ => allOk_bind fun _ _ => allOk_bind fun _ _ =>
      hconcat (p := " ") (by simp) rfl
  · refine allOk_bind fun _ _ => allOk_bind fun _ _ => hconcat (p := " ") (by simp) rfl
  · refine allOk_bind fun _ _ => allOk_bind fun _ _ => allOk_bind fun _ _ =>
      hconcat (p := " ? ") (by simp) rfl
  · dsimp only
    split
    · exact allOk_bind fun _ _ => allOk_bind fun _ _ => allOk_bind fun ts _ =>
        hconcat (p := Text.tuple ts) (by simp) (htuple ts)
    · exact allOk_bind fun _ _ => allOk_bind fun ts _ =>
        hconcat (p := Text.tuple ts) (by simp) (htuple ts)
  · refine allOk_bind fun _ _ => allOk_bind fun _ _ => allOk_bind fun _ _ =>
      hconcat (p := "new ") (by simp) rfl
  · refine allOk_bind fun _ _ => hconcat (p := "await ") (by simp) rfl
  · exact allOk_bind fun _ _ => allOk_bind fun ts _ => allOk_bind fun _ _ =>
      hconcat (p := Text.tuple ts) (by simp) (htuple ts)
  · refine allOk_bind fun _ _ => ?_
    dsimp only
    split
    · exact allOk_bind fun _ _ => hconcat (p := " => ") (by simp) rfl
    · split <;> repeat refine allOk_bind fun _ _ => ?_
      all_goals exact hconcat (p := " => ") (by simp) rfl
  · exact allOk_bind fun _ _ => allOk_bind fun _ _ => allOk_bind fun _ _ =>
      hconcat (p := "class ") (by simp) rfl
  · exact allOk_bind fun _ _ => allOk_ok (Text.isForeign_bracedList _)
  · exact allOk_bind fun _ _ => hconcat (p := "[") (by simp) rfl

namespace Node

variable {n receiver : Node} {t : Text}

/-- The dotted spelling of a name or `this`, or of a member that is reached from
    there by names alone. -/
def dotted? : Node → Option Text
  | identifier x => some x
  | thisExpr => some "this"
  | member receiver (identifier x) false false =>
    receiver.dotted?.map fun t => Text.concat [t, ".", x]
  | _ => none

/-- What a member is reached from. -/
def root : Node → Node
  | member receiver _ _ _ => receiver.root
  | n => n

/-- Whether it may look like a name or member, and is none: `a--`, `null.a`. -/
def isDisguised : Node → Bool
  | update .. => true
  | member receiver _ _ _ => receiver.root.isLiteral
  | _ => false

/-- What an expression is whose text is not barred. -/
inductive Shows : Node → Text → Prop
  | dotted {n : Node} {t : Text} (h : n.dotted? = some t) (hquote : t.any Text.isQuote = false) :
    Shows n t
  | string {q : CodePoint} {body value : Text} (hq : Text.isQuote q = true)
    (hvalue : StringLiteral.value (q :: (body ++ [q])) = .ok value) :
    Shows (literal (.string value) (some (q :: (body ++ [q])))) (q :: (body ++ [q]))
  | word {value : Value} {word : String} (hword : word ∈ ["true", "false", "null"])
    (hvalue : ∀ t, value ≠ .string t) :
    Shows (literal value (some (ofString word))) (ofString word)
  | stringMember {receiver property : Node} {computed isOptional : Bool} {q : CodePoint}
    {body tail : Text} (hq : Text.isQuote q = true) (htail : tail.any Text.isQuote = false)
    (hdot : CodePoint.ofChar '.' ∈ tail.head?) :
    Shows (member receiver property computed isOptional) (q :: (body ++ [q]) ++ tail)
  | literalMember {receiver property : Node} {computed isOptional : Bool} {t : Text}
    (hroot : receiver.root.isLiteral = true) (hdotted : receiver.dotted? = none) :
    Shows (member receiver property computed isOptional) t
  | update {operator t : Text} {argument : Node} {leading : Bool} :
    Shows (update operator argument leading) t
  | yield : Shows (yieldExpr none false) "yield"

/-- Parentheses are foreign to names, if there are any. -/
theorem parensIf_cases (needed : Bool) (t : Text) :
    (Text.parensIf needed t).isForeign = true ∨ needed = false ∧ Text.parensIf needed t = t := by
  cases needed with
  | false => exact .inr ⟨rfl, rfl⟩
  | true => exact .inl (Text.isForeign_parens t)

/-- A receiver is printed as it is only if it binds as tightly as the point. -/
theorem printReceiver_cases {text : Printed} {computed : Bool} {r : Text}
    (h : receiver.printReceiver text computed = .ok r) :
    ∃ u, text = .ok u ∧
      (r.isForeign = true ∨ r = u ∧ ∀ own, receiver.precedence = .ok own → 19 ≤ own) := by
  unfold printReceiver at h
  split at h
  · rename_i hnumber
    obtain ⟨u, hu, h⟩ := bind_eq_ok.1 h
    cases h
    refine ⟨u, hu, (parensIf_cases _ u).imp_right fun hsame => ⟨hsame.2, fun own hown => ?_⟩⟩
    unfold isNumber at hnumber
    split at hnumber
    · cases hown
      decide
    · cases hnumber
  · split at h
    · obtain ⟨u, hu, h⟩ := bind_eq_ok.1 h
      cases h
      exact ⟨u, hu, .inl (Text.isForeign_parens u)⟩
    · obtain ⟨own, hown, h⟩ := bind_eq_ok.1 h
      obtain ⟨u, hu, h⟩ := bind_eq_ok.1 h
      cases h
      refine ⟨u, hu, (parensIf_cases _ u).imp_right fun hsame => ⟨hsame.2, fun own' hown' => ?_⟩⟩
      cases hown.symm.trans hown'
      have hbinds := hsame.1
      unfold needsParens at hbinds
      split at hbinds
      · rename_i hinfix
        exact Nat.le_of_eq hinfix.1.symm
      · simpa using hbinds

/-- A member of something without a dotted spelling has none. -/
theorem dotted?_member_of_none {property : Node} {computed isOptional : Bool}
    (h : receiver.dotted? = none) :
    (member receiver property computed isOptional).dotted? = none := by
  unfold dotted?
  split
  · rename_i heq
    cases heq
  · rename_i heq
    cases heq
  · rename_i heq
    cases heq
    rw [h]
    rfl
  · rfl

/-- A member that is reached by a name is barred with its receiver, and shows
    what its receiver shows. -/
theorem shows_property {x : Text} {isOptional : Bool} (hx : x.any Text.isQuote = false)
    (hreceiver : ∀ u, receiver.print = .ok u → u.Bars ∨ receiver.Shows u)
    (ht : (member receiver (identifier x) false isOptional).print = .ok t) :
    t.Bars ∨ (member receiver (identifier x) false isOptional).Shows t := by
  rw [print] at ht
  obtain ⟨r, hr, ht⟩ := bind_eq_ok.1 ht
  obtain ⟨p, hp, ht⟩ := bind_eq_ok.1 ht
  rw [print] at hp
  cases hp
  rw [if_neg Bool.false_ne_true] at ht
  cases ht
  obtain ⟨u, hu, hforeign | ⟨rfl, hbinds⟩⟩ := printReceiver_cases hr
  · exact .inl (.inl (Text.isForeign_concat (p := r) (by simp) hforeign))
  · cases isOptional with
    | true => exact .inl (.inl (Text.isForeign_concat (p := "?.") (by simp) rfl))
    | false =>
      have hconcat : Text.concat [r, ".", x] = r ++ CodePoint.ofChar '.' :: x := by
        simp [Text.concat, ofString]
      have htail : any (CodePoint.ofChar '.' :: x) Text.isQuote = false := by
        rw [any_cons, hx]; rfl
      rw [if_neg Bool.false_ne_true, hconcat]
      obtain hbars | hshows := hreceiver r hu
      · exact .inl (hbars.append _)
      · -- the property goes to the end of what is shown; `a--` and `yield` would
        -- stand in parentheses
        right
        cases hshows with
        | dotted h hquote =>
          refine .dotted ?_ (by rw [any_append, hquote, htail]; rfl)
          rw [dotted?, h, Option.map_some, hconcat]
        | string hq _ => exact .stringMember hq htail rfl
        | word _ _ => exact .literalMember rfl rfl
        | stringMember hq htail' hdot =>
          rw [append_assoc]
          refine .stringMember hq (by rw [any_append, htail', htail]; rfl) ?_
          rw [head?_append, Option.mem_def.1 hdot]
          rfl
        | literalMember hroot hdotted => exact .literalMember hroot (dotted?_member_of_none hdotted)
        | update => exact absurd (hbinds 18 rfl) (by decide)
        | yield => exact absurd (hbinds 2 rfl) (by decide)

/-- A unary operator bars its text: a word has a blank after it, and a sign
    begins no name. -/
theorem bars_unary {op : String} (hop : op ∈ unaryOperators) {argument : Node}
    (ht : (unary op argument).print = .ok t) : t.Bars := by
  rw [print] at ht
  obtain ⟨a, -, ht⟩ := bind_eq_ok.1 ht
  have hword (hblank : printUnary op a = .ok (Text.concat [op, " ", a])) : t.Bars := by
    cases hblank.symm.trans ht
    exact .inl (Text.isForeign_concat (p := " ") (by simp) rfl)
  have hsign (hop : (ofString op).Bars)
      (hsign : ∃ u, printUnary op a = .ok (ofString op ++ u)) : t.Bars := by
    obtain ⟨u, hu⟩ := hsign
    cases hu.symm.trans ht
    exact hop.append u
  simp only [unaryOperators, mem_cons, not_mem_nil, or_false] at hop
  obtain rfl | rfl | rfl | rfl | rfl | rfl | rfl := hop
  · exact hword rfl
  · exact hword rfl
  · exact hword rfl
  · exact hsign (.inl rfl) ⟨_, rfl⟩
  · exact hsign (.inr rfl) ⟨_, rfl⟩
  · exact hsign (.inl rfl) ⟨_, rfl⟩
  · exact hsign (.inl rfl) ⟨_, rfl⟩

/-- `yield` alone shows as a name; what stands after it bars its text. -/
theorem shows_yield {argument : Option Node} {delegate : Bool}
    (ht : (yieldExpr argument delegate).print = .ok t) :
    t.Bars ∨ (yieldExpr argument delegate).Shows t := by
  rw [print] at ht
  obtain ⟨u, hu, ht⟩ := bind_eq_ok.1 ht
  cases ht
  cases argument with
  | none =>
    cases hu
    cases delegate with
    | true => exact .inl (.inl rfl)
    | false => exact .inr .yield
  | some e =>
    left
    rw [printOption] at hu
    obtain ⟨v, hv, hu⟩ := bind_eq_ok.1 hu
    obtain ⟨w, -, hv⟩ := bind_eq_ok.1 hv
    cases hv
    cases hu
    have hblank : (Text.concat [" ", w]).isForeign = true :=
      Text.isForeign_concat (p := " ") (by simp) rfl
    exact .inl (Text.isForeign_concat (by simp) hblank)

/-- What is read from source has a text that is barred, or shows what it is. -/
theorem Spelled.bars_or_shows (h : n.Spelled) (hraw : ∀ text, Node.raw text ∉ n.walk)
    (hsuper : superExpr ∉ n.walk) (ht : n.print = .ok t) : t.Bars ∨ n.Shows t := by
  -- only members need the induction: their text begins with that of the receiver
  induction h generalizing t with
  | name h =>
    rw [print] at ht
    cases ht
    exact .inr (.dotted rfl h)
  | string hq hvalue =>
    rw [print] at ht
    cases ht
    exact .inr (.string hq hvalue)
  | number h =>
    rw [print] at ht
    cases ht
    obtain ⟨c, hc, h⟩ := h
    refine .inl (.inr ?_)
    rw [Option.mem_def.1 hc, Option.any_some]
    obtain hdigit | rfl := h
    · exact CodePoint.not_isNameStart_of_isAsciiDigit hdigit
    · rfl
  | word hword hvalue =>
    rw [print] at ht
    cases ht
    exact .inr (.word hword hvalue)
  | this =>
    rw [print] at ht
    cases ht
    exact .inr (.dotted rfl rfl)
  | super => exact absurd (mem_walk_self _) hsuper
  | raw text => exact absurd (mem_walk_self _) (hraw text)
  | @property receiver x isOptional _ hx ih =>
    have hwalk : receiver.walk ⊆ (member receiver (identifier x) false isOptional).walk :=
      walk_subset_of_mem_walk (mem_walk_of_mem_children mem_cons_self)
    exact shows_property hx (fun u hu => ih (fun text h => hraw text (hwalk h))
      (fun h => hsuper (hwalk h)) hu) ht
  | index receiver property isOptional =>
    rw [print] at ht
    obtain ⟨r, -, ht⟩ := bind_eq_ok.1 ht
    obtain ⟨p, -, ht⟩ := bind_eq_ok.1 ht
    rw [if_pos rfl] at ht
    cases ht
    exact .inl (.inl (Text.isForeign_concat (p := "]") (by simp) rfl))
  | unary hop argument => exact .inl (bars_unary hop ht)
  | update operator argument leading => exact .inr .update
  | tagged tag quasis expressions =>
    rw [print] at ht
    obtain ⟨u, -, ht⟩ := bind_eq_ok.1 ht
    obtain ⟨q, hq, ht⟩ := bind_eq_ok.1 ht
    cases ht
    have hforeign := isForeign_of_isComposite (n := template quasis expressions) rfl q hq
    exact .inl (.inl (Text.isForeign_concat (p := q) (by simp) hforeign))
  | sequence h =>
    rw [print] at ht
    obtain ⟨ts, hts, ht⟩ := bind_eq_ok.1 ht
    cases ht
    have hlength := (forall₂_of_mapM hts).length_eq
    rw [← length_map (f := (·.2)), map_snd_printList, length_map] at hlength
    exact .inl (.inl (Text.isForeign_join (hlength ▸ h)))
  | group h ih =>
    rw [print] at ht
    obtain ⟨u, -, ht⟩ := bind_eq_ok.1 ht
    cases ht
    exact .inl (.inl (Text.isForeign_parens u))
  | spread argument =>
    rw [print] at ht
    obtain ⟨u, -, ht⟩ := bind_eq_ok.1 ht
    cases ht
    exact .inl (.inr rfl)
  | yield argument delegate => exact shows_yield ht
  | composite h => exact .inl (.inl (isForeign_of_isComposite h t ht))

/-! ## Names and tags -/

theorem Spelled.ungroup (h : n.Spelled) : n.ungroup.Spelled := by
  fun_induction Node.ungroup n with
  | case1 e ih =>
    cases h with
    | group h => exact ih h
    | composite h => cases h
  | case2 n => exact h

/-- The name of an element denotes a tag: the string of a built-in element, or
    what has it as its dotted spelling. -/
def Denotes (name : Text) (n : Node) : Prop :=
  if name.isIntrinsicTag then ∃ spelling, n = literal (.string name) spelling
  else n.dotted? = some name

theorem isLiteral_root_of_dotted? (h : n.dotted? = some t) : n.root.isLiteral = false := by
  fun_induction dotted? n generalizing t with
  | case1 => rfl
  | case2 => rfl
  | case3 receiver x ih =>
    obtain ⟨u, hu, -⟩ := Option.map_eq_some_iff.1 h
    exact ih hu
  | case4 => cases h

theorem isDisguised_of_dotted? (h : n.dotted? = some t) :
    n.isString = false ∧ n.isDisguised = false := by
  have hroot := isLiteral_root_of_dotted? h
  unfold dotted? at h
  split at h
  · exact ⟨rfl, rfl⟩
  · exact ⟨rfl, rfl⟩
  · exact ⟨rfl, hroot⟩
  · cases h

/-- The name of an element is the text of its tag less quotes, and that of a
    built-in element exactly if the tag is a string. -/
theorem tagName?_eq_some {tag : Node} {name : Text} (h : tag.tagName? = .ok (some name)) :
    ∃ t, tag.ungroup.print = .ok t ∧ name = t.unquote ∧ name.isTagName = true ∧
      tag.ungroup.isString = name.isIntrinsicTag := by
  obtain ⟨t, ht, h⟩ := bind_eq_ok.1 h
  dsimp only at h
  split at h
  · rename_i htag
    cases h
    obtain ⟨hname, hstring⟩ := Bool.and_eq_true_iff.1 htag
    exact ⟨t, ht, rfl, hname, eq_of_beq hstring⟩
  · cases h

/-- A tag whose text can be a name is denoted by it, unless disguised. -/
theorem Shows.denotes_iff {name : Text} (h : n.Shows t) (hname : name = t.unquote)
    (htag : name.isTagName = true) (hstring : n.isString = name.isIntrinsicTag) :
    n.Denotes name ↔ n.isDisguised = false := by
  have hnone (hno : n.isString = false) (hdotted : n.dotted? = none)
      (hdisguised : n.isDisguised = true) : n.Denotes name ↔ n.isDisguised = false := by
    rw [Denotes, ← hstring, hno, if_neg Bool.false_ne_true, hdotted, hdisguised]
    simp
  cases h with
  | dotted h hquote =>
    have hself : t.unquote = t :=
      Text.unquote_eq_self fun c hc => by simpa using any_eq_false.1 hquote c hc
    obtain ⟨hno, hdisguised⟩ := isDisguised_of_dotted? h
    rw [Denotes, ← hstring, hno, if_neg Bool.false_ne_true, hname, hself]
    exact ⟨fun _ => hdisguised, fun _ => h⟩
  | @string q body value hq hvalue =>
    -- a literal with a name between its quotes has no escapes, and this name is
    -- its value
    rw [Text.unquote_quoted hq] at hname
    subst hname
    rw [StringLiteral.value_of_isTagName htag] at hvalue
    cases hvalue
    rw [Denotes, ← hstring]
    exact ⟨fun _ => rfl, fun _ => ⟨_, rfl⟩⟩
  | @word value word hword hvalue =>
    -- by its first letter this would be a built-in element, and these are strings
    have hno : (literal value (some (ofString word))).isString = false := by
      cases value with
      | string t => exact absurd rfl (hvalue t)
      | _ => rfl
    rw [hno, hname] at hstring
    simp only [mem_cons, not_mem_nil, or_false] at hword
    obtain rfl | rfl | rfl := hword <;> cases hstring
  | stringMember hq htail hdot =>
    -- the second quote is left over before the point
    have hquotes : ∀ c ∈ _, Text.isQuote c = false :=
      fun c hc => by simpa using any_eq_false.1 htail c hc
    rw [hname, Text.isTagName_unquote_of_quoted hq _ hquotes hdot] at htag
    cases htag
  | literalMember hroot hdotted => exact hnone rfl (dotted?_member_of_none hdotted) hroot
  | update => exact hnone rfl rfl rfl
  | yield =>
    rw [hname] at hstring
    cases hstring

end Node

/-- The name of an element denotes the tag of the call that becomes it, where
    the tag is read from source and has no unread source and no `super` in it,
    if and only if the tag is not disguised. -/
theorem name_denotes_tag_iff {src : Source} {c : Concrete} {d : Dialect} {callee tag element : Node}
    {rest : List Node} {o : Bool} {name : Text} (hlexed : c.Lexed src)
    (htag : (c.read src).expression = .ok tag) (hraw : ∀ text, Node.raw text ∉ tag.walk)
    (hsuper : Node.superExpr ∉ tag.walk)
    (helement : d.element? (.call callee (tag :: rest) o) = .ok (some element))
    (hname : element.elementName? = some name) :
    tag.ungroup.Denotes name ↔ tag.ungroup.isDisguised = false := by
  obtain ⟨f, attrs, children, folded, kept, hmakes, rfl⟩ := Dialect.element?_makes helement
  obtain rfl : f.name = name := Option.some.inj hname
  obtain ⟨-, -, htagName, -⟩ := Dialect.frame?_parts hmakes.frame
  obtain ⟨t, ht, hunquote, hisTag, hstring⟩ := tagName?_eq_some htagName
  have hwalk := walk_subset_of_mem_walk (ungroup_mem_walk tag)
  obtain hbars | hshows := (hlexed.spells tag htag).1.ungroup.bars_or_shows
    (fun text h => hraw text (hwalk h)) (fun h => hsuper (hwalk h)) ht
  · rw [hunquote, hbars.isTagName_unquote] at hisTag
    cases hisTag
  · exact hshows.denotes_iff hunquote hisTag hstring

/-- ASCII source. -/
def Source.ofString (s : String) : Source :=
  s.toList.map fun c => c.toNat.toUInt8

/-- A token, which the grammar says nothing of. -/
def Concrete.token (kind : String) (field : Option String) (start stop : Nat) : Concrete :=
  .node ⟨kind, field, false, false, start, stop⟩ []

/-- A name in a field of its parent. -/
def Concrete.name (kind : String) (field : String) (start stop : Nat) : Concrete :=
  .node ⟨kind, field, true, false, start, stop⟩ []

/-- Nodes of other kinds than those that the grammar says something of. -/
theorem Label.follows_of_kind {src : Source} {l : Label} {children : List Label}
    (h : l.kind ∉ ["number", "string", "unary_expression", "member_expression",
      "sequence_expression"] ++ nameKinds) : l.Follows src children := by
  simp only [mem_append, mem_cons, not_mem_nil, or_false, not_or] at h
  obtain ⟨⟨hnumber, hstring, hunary, hmember, hsequence⟩, hname⟩ := h
  exact ⟨fun hkind => absurd hkind hname, fun hkind => absurd hkind hnumber,
    fun hkind => absurd hkind hstring, fun hkind => absurd hkind hunary,
    fun hkind => absurd hkind hmember, fun hkind => absurd hkind hsequence⟩

/-- Of a name the grammar promises that it holds no quotes. -/
theorem Label.follows_of_name {src : Source} {l : Label} {children : List Label} {t : Text}
    (hkind : l.kind ∈ nameKinds) (htext : l.text src = .ok t)
    (hquote : t.any Text.isQuote = false) : l.Follows src children := by
  have hother {kind : String} (hkind' : kind ∉ nameKinds) : l.kind ≠ kind := by
    rintro rfl
    exact hkind' hkind
  refine ⟨fun _ u hu => ?_, fun h => absurd h (hother (by decide)),
    fun h => absurd h (hother (by decide)), fun h => absurd h (hother (by decide)),
    fun h => absurd h (hother (by decide)), fun h => absurd h (hother (by decide))⟩
  cases htext.symm.trans hu
  exact hquote

/-- Of other tokens the grammar promises nothing. -/
theorem Concrete.lexed_token {src : Source} {kind : String} {field : Option String}
    {start stop : Nat} (h : kind ∉ ["number", "string", "unary_expression", "member_expression",
      "sequence_expression"] ++ nameKinds) : (token kind field start stop).Lexed src :=
  .node (Label.follows_of_kind h) (forall_mem_nil _)

theorem Concrete.lexed_name {src : Source} {kind field : String} {start stop : Nat} {t : Text}
    (hkind : kind ∈ nameKinds) (htext : src.text start stop = .ok t)
    (hquote : t.any Text.isQuote = false) : (name kind field start stop).Lexed src :=
  .node (Label.follows_of_name hkind htext hquote) (forall_mem_nil _)

/-- `createElement((App.Header))` -/
theorem member_denoted :
    let src := Source.ofString "(App.Header)"
    let c : Concrete := .node ⟨"parenthesized_expression", none, true, false, 0, 12⟩
      [.token "(" none 0 1,
        .node ⟨"member_expression", none, true, false, 1, 11⟩
          [.name "identifier" "object" 1 4, .token "." none 4 5,
            .name "property_identifier" "property" 5 11],
        .token ")" none 11 12]
    ∃ tag element, (c.read src).expression = .ok tag ∧
      (⟨{}, none⟩ : Dialect).element? (.call (.identifier "createElement") [tag] false) =
        .ok (some element) ∧
      element.elementName? = some (ofString "App.Header") ∧
      tag.ungroup.Denotes "App.Header" := by
  intro src c
  have hmember : Concrete.Lexed src
      (.node ⟨"member_expression", none, true, false, 1, 11⟩
        [.name "identifier" "object" 1 4, .token "." none 4 5,
          .name "property_identifier" "property" 5 11]) := by
    refine .node ⟨fun h => absurd h (by decide), fun h => absurd h (by decide),
      fun h => absurd h (by decide), fun h => absurd h (by decide), fun _ l hl hfield t ht => ?_,
      fun h => absurd h (by decide)⟩ ?_
    · simp only [map_cons, map_nil, mem_cons, not_mem_nil, or_false] at hl
      obtain rfl | rfl | rfl := hl
      · exact absurd hfield (by decide)
      · exact absurd hfield (by decide)
      · cases ht
        rfl
    · simp only [mem_cons, not_mem_nil, or_false, forall_eq_or_imp, forall_eq]
      exact ⟨Concrete.lexed_name (by decide) rfl rfl, Concrete.lexed_token (by decide),
        Concrete.lexed_name (by decide) rfl rfl⟩
  have hlexed : c.Lexed src := by
    refine .node (Label.follows_of_kind (by decide)) ?_
    simp only [mem_cons, not_mem_nil, or_false, forall_eq_or_imp, forall_eq]
    exact ⟨Concrete.lexed_token (by decide), hmember, Concrete.lexed_token (by decide)⟩
  have htag : (c.read src).expression =
    .ok (.parenthesized (.member (.identifier "App") (.identifier "Header") false false)) := rfl
  obtain ⟨element, helement, hname⟩ : ∃ element,
      (⟨{}, none⟩ : Dialect).element?
      (.call (.identifier "createElement")
        [.parenthesized (.member (.identifier "App") (.identifier "Header") false false)] false) =
        .ok (some element) ∧ element.elementName? = some (ofString "App.Header") :=
    Dialect.exists_element (by decide +kernel)
  have hwalk : ∀ m ∈ (Node.parenthesized
      (.member (.identifier "App") (.identifier "Header") false false)).walk,
      m.ungroup.root.isIdentifier = true := by
    decide +kernel
  refine ⟨_, element, htag, helement, hname,
    (name_denotes_tag_iff hlexed htag (fun text h => ?_) (fun h => ?_) helement hname).2 rfl⟩
  · cases hwalk _ h
  · cases hwalk _ h

/-- `createElement(X--)` -/
theorem update_not_denoted :
    let src := Source.ofString "X--"
    let c : Concrete := .node ⟨"update_expression", none, true, false, 0, 3⟩
      [.name "identifier" "argument" 0 1, .token "--" (some "operator") 1 3]
    c.Lexed src ∧ ∃ tag element, (c.read src).expression = .ok tag ∧
      (⟨{}, none⟩ : Dialect).element? (.call (.identifier "createElement") [tag] false) =
        .ok (some element) ∧
      element.elementName? = some (ofString "X--") ∧ ¬tag.ungroup.Denotes "X--" := by
  intro src c
  have hlexed : c.Lexed src := by
    refine .node (Label.follows_of_kind (by decide)) ?_
    simp only [mem_cons, not_mem_nil, or_false, forall_eq_or_imp, forall_eq]
    exact ⟨Concrete.lexed_name (by decide) rfl rfl, Concrete.lexed_token (by decide)⟩
  obtain ⟨element, helement, hname⟩ : ∃ element,
      (⟨{}, none⟩ : Dialect).element?
          (.call (.identifier "createElement") [.update "--" (.identifier "X") false] false) =
        .ok (some element) ∧ element.elementName? = some (ofString "X--") :=
    Dialect.exists_element (by decide +kernel)
  refine ⟨hlexed, _, element, rfl, helement, hname, fun h => ?_⟩
  cases h

end Resugar
