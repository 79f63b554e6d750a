import Resugar.Text.Quoted

/-!
# Faults

Everything that can stop the work on a file, as a cause. `Fault.message` puts it
into words.
-/

namespace Resugar

/-- What stopped the work. -/
inductive Fault where
  /-- The concrete tree holds an erroneous or missing node. -/
  | syntaxError (snippet : Text) (line column : Nat)
  | missingField (kind field : Text) (line column : Nat)
  | missingChild
  | misplacedChild
  | malformedBytes
  /-- A text with a surrogate, which has no bytes. -/
  | loneSurrogate
  /-- An escape for a number beyond the code points. -/
  | noSuchCodePoint
  /-- An escape for a number beyond 32 bits. -/
  | codePointTooWide
  /-- The props of a markup call have a shape that no attributes express. -/
  | unsupportedProps (kind : Text)
  | unknownOperator
  | emptyOperator
  | notAnExpression
  /-- A definition with something else than a name where its name stands. -/
  | nameless
  | noStatements
  /-- A body that is a single node, where a list of statements is needed. -/
  | singleBody
  | notADeclarator
  | numeralTooLong
  | emptyName
  | invalidSuffix
  | zeroInName
  | nameTooLong
  /-- A file that does not lie in the input directory. -/
  | outsideInput
  | missingTree
  /-- A file where a directory has to be made. -/
  | fileInTheWay
  /-- A file on the way to a directory that has to be made. -/
  | notADirectory
  /-- A directory where a file has to be written. -/
  | isADirectory
  | fileNotFound
  /-- A line that the console does not take. -/
  | refusedLine
  deriving DecidableEq

namespace Fault

/-- A place in a file, as messages name it. -/
def place (line column : Nat) : Text :=
  Text.ofString " (line " ++ Text.ofNat line ++ Text.ofString ", column " ++
    Text.ofNat column ++ Text.ofString ")"

/-- A fault in words. -/
def message : Fault → Text
  | syntaxError snippet line column =>
    Text.ofString "Syntax error near " ++ snippet.quoted ++ place line column
  | missingField kind field line column =>
    kind ++ Text.ofString " without " ++ field ++ place line column
  | missingChild => "Missing part"
  | misplacedChild => "Misplaced part"
  | malformedBytes => "Not UTF-8 text"
  | loneSurrogate => "Text with a lone surrogate"
  | noSuchCodePoint => "No such code point"
  | codePointTooWide => "Code point too wide"
  | unsupportedProps kind => Text.ofString "Unsupported props expression: " ++ kind
  | unknownOperator => "Unknown operator"
  | emptyOperator => "Empty operator"
  | notAnExpression => "Not an expression"
  | nameless => "Definition without a name"
  | noStatements => "Body without statements"
  | singleBody => "Body that is no list of statements"
  | notADeclarator => "Not a declarator"
  | numeralTooLong => "Numeral too long"
  | emptyName => "Empty name"
  | invalidSuffix => "Invalid suffix"
  | zeroInName => "File name with a zero byte"
  | nameTooLong => "File name too long"
  | outsideInput => "File outside the input directory"
  | missingTree => "File without a syntax tree"
  | fileInTheWay => "File where a directory should be"
  | notADirectory => "Not a directory"
  | isADirectory => "Is a directory"
  | fileNotFound => "No such file"
  | refusedLine => "Line that the console does not take"

end Fault

/-! ## Computations that may fail -/

section Results

variable {α β : Type}

/-- A computation in two parts gives a result if both parts do, in turn. -/
theorem bind_eq_ok {x : Except Fault α} {f : α → Except Fault β} {b : β} :
    x >>= f = .ok b ↔ ∃ a, x = .ok a ∧ f a = .ok b := by
  cases x with
  | error e => exact ⟨nofun, fun ⟨_, h, _⟩ => nomatch h⟩
  | ok a => exact ⟨fun h => ⟨a, rfl, h⟩, fun ⟨_, h, h'⟩ => Except.ok.inj h ▸ h'⟩

/-- A function of a result is given if the result is. -/
theorem map_eq_ok {x : Except Fault α} {f : α → β} {b : β} :
    f <$> x = .ok b ↔ ∃ a, x = .ok a ∧ f a = b := by
  cases x with
  | error e => exact ⟨nofun, fun ⟨_, h, _⟩ => nomatch h⟩
  | ok a =>
    exact ⟨fun h => ⟨a, rfl, Except.ok.inj h⟩,
      fun ⟨_, h, h'⟩ => by rw [← h', ← Except.ok.inj h]; rfl⟩

variable {f : α → Except Fault β} {l : List α} {r : List β}

theorem mem_of_mapM (h : l.mapM f = .ok r) {b : β} (hb : b ∈ r) : ∃ a ∈ l, f a = .ok b := by
  induction l generalizing r with
  | nil =>
    cases h
    cases hb
  | cons a l ih =>
    rw [List.mapM_cons] at h
    obtain ⟨b', hb', h⟩ := bind_eq_ok.1 h
    obtain ⟨r', hr', h⟩ := bind_eq_ok.1 h
    cases h
    rcases List.mem_cons.1 hb with rfl | hb
    · exact ⟨a, List.mem_cons_self, hb'⟩
    · obtain ⟨a', ha', h'⟩ := ih hr' hb
      exact ⟨a', List.mem_cons_of_mem _ ha', h'⟩

/-- What an item gives stands at the item's place. -/
theorem getElem?_of_mapM (h : l.mapM f = .ok r) {i : Nat} {a : α} (ha : l[i]? = some a) :
    ∃ b, r[i]? = some b ∧ f a = .ok b := by
  induction l generalizing r i with
  | nil => cases ha
  | cons a' l ih =>
    rw [List.mapM_cons] at h
    obtain ⟨b, hb, h⟩ := bind_eq_ok.1 h
    obtain ⟨r', hr', h⟩ := bind_eq_ok.1 h
    cases h
    cases i with
    | zero =>
      cases ha
      exact ⟨b, rfl, hb⟩
    | succ i => exact ih hr' ha

/-- A filter that gives a result has tested every item, and keeps those that
    passed beside what it had. -/
theorem filterAuxM_eq_ok {p : α → Except Fault Bool} {acc r : List α}
    (h : l.filterAuxM p acc = .ok r) :
    (∀ a ∈ l, ∃ b, p a = .ok b) ∧
      r = (l.filter fun a => (p a).toOption.getD false).reverse ++ acc := by
  induction l generalizing acc with
  | nil =>
    cases h
    exact ⟨nofun, rfl⟩
  | cons a l ih =>
    obtain ⟨b, hb, h⟩ := bind_eq_ok.1 h
    obtain ⟨hl, rfl⟩ := ih h
    refine ⟨List.forall_mem_cons.2 ⟨⟨b, hb⟩, hl⟩, ?_⟩
    cases b <;> simp [hb, Except.toOption]

/-- The members that pass a test which may fail. -/
theorem filterM_eq_ok {p : α → Except Fault Bool} {r : List α} (h : l.filterM p = .ok r) :
    (∀ a ∈ l, ∃ b, p a = .ok b) ∧ r = l.filter fun a => (p a).toOption.getD false := by
  obtain ⟨r', hr', h⟩ := bind_eq_ok.1 h
  obtain ⟨hl, rfl⟩ := filterAuxM_eq_ok hr'
  cases h
  exact ⟨hl, by simp⟩

end Results

end Resugar
