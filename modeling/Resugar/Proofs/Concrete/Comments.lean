import Mathlib.Logic.Relation
import Resugar.Proofs.Concrete.FirstError

/-!
# Comments

A comment may stand between any two children of a concrete node, and means
nothing there. `Reading.strip` takes the comments out of a reading, all but
those that are first children, and leaves the meanings alone. Every question
that is asked of the children of a node has the same answer before and after, so
that each reader of a kind of node gives the same.

The first child is an exception because two readers do ask for it: a lexical
declaration takes its keyword from there when no field has it, and an update
expression its operator.
-/

namespace Resugar

open List Reading

namespace Label

variable {l : Label}

/-- Whether the label is that of a comment as it may stand anywhere. -/
def isComment (l : Label) : Bool :=
  l.isNamed && ["comment", "html_comment", "hash_bang_line"].contains l.kind &&
    l.field.isNone && !l.isMissing

theorem isComment_iff :
    l.isComment ↔ l.isNamed ∧ l.isExtra ∧ l.field = none ∧ l.isMissing = false := by
  simp only [isComment, isExtra, contains_cons, contains_nil, Bool.and_eq_true,
    Bool.or_eq_true, beq_iff_eq, Option.isNone_iff_eq_none, Bool.not_eq_true', Bool.or_false]
  grind

/-- A comment is of none of the kinds that are looked for. -/
theorem kind_ne_of_isComment (h : l.isComment) {kind : String}
    (hkind : kind ∉ ["comment", "html_comment", "hash_bang_line"]) : l.kind ≠ kind := by
  rintro rfl
  simp only [isComment, Bool.and_eq_true, contains_iff_mem] at h
  exact hkind h.1.1.2

end Label

/-! ### Readings without comments -/

namespace Reading

/-- Whether a node is a comment with nothing below it. -/
def isComment (r : Reading) : Bool :=
  r.label.isComment && r.children.isEmpty

mutual

/-- A reading without the comments below it, but for first children. -/
def strip : Reading → Reading
  | node label expression statement pattern children =>
    node label expression statement pattern (stripAll children)

/-- The children of a node without comments, but for the first child. -/
def stripAll : List Reading → List Reading
  | [] => []
  | c :: cs => strip c :: stripRest cs

/-- The children after the first one without comments. -/
def stripRest : List Reading → List Reading
  | [] => []
  | c :: cs => if c.isComment then stripRest cs else strip c :: stripRest cs

end

theorem stripRest_eq (cs : List Reading) : stripRest cs = (cs.filter (!isComment ·)).map strip := by
  induction cs with
  | nil => rfl
  | cons c cs ih =>
    rw [stripRest, ih]
    cases h : c.isComment <;> simp [h]

section

variable (r : Reading)

@[simp] theorem label_strip : r.strip.label = r.label := by cases r; rfl

@[simp] theorem expression_strip : r.strip.expression = r.expression := by cases r; rfl

@[simp] theorem statement_strip : r.strip.statement = r.statement := by cases r; rfl

@[simp] theorem pattern_strip : r.strip.pattern = r.pattern := by cases r; rfl

@[simp] theorem kind_strip : r.strip.kind = r.kind := by rw [kind, label_strip, kind]

@[simp] theorem text_strip (src : Source) :
    r.strip.text src = r.text src := by rw [text, label_strip, text]

end

/-- Stripping is nothing to a function of children that passes over comments and
    looks at each child alone. -/
theorem stripAll_invariant {σ τ : Type} {f : σ → List Reading → τ}
    (hskip : ∀ x c cs, c.isComment → f x (c :: cs) = f x cs)
    (hcons : ∀ x c cs cs', (∀ y, f y cs = f y cs') → f x (c.strip :: cs) = f x (c :: cs')) (x : σ)
    (cs : List Reading) : f x (stripAll cs) = f x cs := by
  have hrest (cs : List Reading) : ∀ x, f x (stripRest cs) = f x cs := by
    induction cs with
    | nil => exact fun _ => rfl
    | cons c cs ih =>
      intro x
      rw [stripRest]
      split
      · next hc => rw [ih, hskip x c cs hc]
      · exact hcons x c _ _ ih
  cases cs with
  | nil => rfl
  | cons c cs => exact hcons x c _ _ (hrest cs)

@[simp] theorem head?_stripAll (cs : List Reading) : (stripAll cs).head? = cs.head?.map strip := by
  cases cs <;> rfl

/-- The children with some property of labels that comments do not have. -/
theorem filter_stripAll {p : Label → Bool}
    (hp : ∀ l : Label, l.isComment → p l = false) (cs : List Reading) :
    (stripAll cs).filter (p ·.label) = (cs.filter (p ·.label)).map strip := by
  have hrest (cs : List Reading) : (stripRest cs).filter (p ·.label) =
      (cs.filter (p ·.label)).map strip := by
    rw [stripRest_eq, filter_map, filter_filter]
    refine congrArg _ (filter_congr fun c _ => ?_)
    cases hc : c.isComment with
    | false => simp
    | true => simp [hp c.label (Bool.and_eq_true_iff.1 hc).1]
  cases cs with
  | nil => rfl
  | cons c cs =>
    rw [stripAll, filter_cons, hrest, filter_cons, label_strip]
    split <;> rfl

/-- A search that passes over comments finds the same child. -/
theorem find?_stripAll {p : Label → Bool}
    (hp : ∀ l : Label, l.isComment → p l = false) (cs : List Reading) :
    (stripAll cs).find? (p ·.label) = (cs.find? (p ·.label)).map strip := by
  rw [← head?_filter, filter_stripAll hp, head?_map, head?_filter]

@[simp] theorem mapM_map_strip {α : Type} (f : Reading → Except Fault α) (o : Option Reading) :
    (o.map strip).mapM f = o.mapM fun r => f r.strip := by
  cases o <;> rfl

/-- Elements stand between commas, and a comment is neither. -/
theorem elements_stripAll {meaning : Reading → Except Fault Node}
    (hmeaning : ∀ r, meaning r.strip = meaning r) (seen : Bool) (cs : List Reading) :
    elements meaning seen (stripAll cs) = elements meaning seen cs := by
  refine stripAll_invariant (fun seen c cs hc => ?_) (fun seen c cs cs' ih => ?_) seen cs
  · obtain ⟨hlabel, -⟩ := Bool.and_eq_true_iff.1 hc
    have hcomma : c.kind ≠ "," := Label.kind_ne_of_isComment hlabel (by decide)
    simp [elements, hcomma, (Label.isComment_iff.1 hlabel).2.1]
  · simp [elements, ih, hmeaning]

end Reading

/-! ### The questions asked of a node -/

namespace Site

variable (s : Site)

/-- A site without the comments below it, but for first children. -/
def strip : Site :=
  ⟨s.label, stripAll s.children⟩

@[simp] theorem label_strip : s.strip.label = s.label := rfl

@[simp] theorem children_strip : s.strip.children = stripAll s.children := rfl

@[simp] theorem text_strip (src : Source) : s.strip.text src = s.text src := rfl

@[simp] theorem site_strip (r : Reading) : r.strip.site = r.site.strip := by
  cases r; rfl

@[simp] theorem named_strip : s.strip.named = s.named.map Reading.strip :=
  Reading.filter_stripAll (p := fun l => l.isNamed && !l.isExtra)
    (by simp +contextual [Label.isComment_iff]) _

@[simp] theorem fieldAll_strip (name : String) :
    s.strip.fieldAll name = (s.fieldAll name).map Reading.strip :=
  Reading.filter_stripAll (p := fun l => l.field == some name)
    (by simp +contextual [Label.isComment_iff]) _

@[simp] theorem field?_strip (name : String) :
    s.strip.field? name = (s.field? name).map Reading.strip :=
  Reading.find?_stripAll (p := fun l => l.field == some name)
    (by simp +contextual [Label.isComment_iff]) _

/-- A child of a kind that no comment has is found as before. -/
@[simp] theorem ofKind?_strip {kind : String}
    (hkind : kind ∉ ["comment", "html_comment", "hash_bang_line"]) :
    s.strip.ofKind? kind = (s.ofKind? kind).map Reading.strip := by
  refine Reading.find?_stripAll (p := fun l => l.isNamed && l.kind == kind) (fun l hl => ?_) _
  simp [Label.kind_ne_of_isComment hl hkind]

@[simp] theorem hasToken_strip (token : String) : s.strip.hasToken token = s.hasToken token := by
  have h := find?_stripAll (p := fun l => !l.isNamed && l.kind == token)
    (by simp +contextual [Label.isComment_iff]) s.children
  have hsome := congrArg Option.isSome h
  rw [Option.isSome_map, isSome_find?, isSome_find?] at hsome
  exact hsome

@[simp] theorem first_strip : s.strip.first = Reading.strip <$> s.first := by
  rw [first, first, named_strip]
  cases s.named <;> rfl

@[simp] theorem required_strip (src : Source) (name : String) :
    s.strip.required src name = Reading.strip <$> s.required src name := by
  rw [required, required, field?_strip]
  cases s.field? name <;> rfl

@[simp] theorem expressions_strip : s.strip.expressions = s.expressions := by
  simp [expressions, Function.comp_def]

@[simp] theorem patterns_strip : s.strip.patterns = s.patterns := by
  simp [patterns, Function.comp_def]

@[simp] theorem block_strip : s.strip.block = s.block := by
  simp [block, Function.comp_def]

@[simp] theorem firstExpression_strip : s.strip.firstExpression = s.firstExpression := by
  simp [firstExpression]

end Site

/-! ### The readers of each kind of node -/

namespace Reading

variable (src : Source) (r : Reading)

@[simp] theorem identifier_strip : r.strip.identifier src = r.identifier src := by
  simp [identifier]

@[simp] theorem key_strip : r.strip.key src = r.key src := by
  simp [key]

@[simp] theorem isComputedKey_strip : r.strip.isComputedKey = r.isComputedKey := by
  simp [isComputedKey]

@[simp] theorem moduleName_strip : r.strip.moduleName src = r.moduleName src := by
  simp [moduleName]

@[simp] theorem condition_strip : r.strip.condition = r.condition := by
  simp [condition]

@[simp] theorem params_strip : r.strip.params = r.params := by
  simp [params]

@[simp] theorem body_strip : r.strip.body = r.body := by
  simp [body]

end Reading

namespace Site

variable (src : Source) (s : Site)

@[simp] theorem functionParts_strip : s.strip.functionParts src = s.functionParts src := by
  simp [functionParts]

@[simp] theorem methodKind_strip : s.strip.methodKind = s.methodKind := by
  refine Reading.stripAll_invariant (f := fun kind cs => foldl _ kind cs)
    (fun kind c cs hc => ?_) (fun kind c cs cs' ih => ?_) EntryKind.init s.children
  · simp [(Label.isComment_iff.1 (Bool.and_eq_true_iff.1 hc).1).1]
  · rw [foldl_cons, foldl_cons, ih, Reading.label_strip, Reading.kind_strip]

@[simp] theorem methodParts_strip : s.strip.methodParts src = s.methodParts src := by
  simp [methodParts]

end Site

namespace Reading

variable (src : Source) (r : Reading)

@[simp] theorem member_strip : r.strip.member src = r.member src := by
  simp [member]

@[simp] theorem patternEntry_strip : r.strip.patternEntry src = r.patternEntry src := by
  simp [patternEntry]

@[simp] theorem objectEntry_strip : r.strip.objectEntry src = r.objectEntry src := by
  simp [objectEntry]

@[simp] theorem sequencePart_strip : r.strip.sequencePart = r.sequencePart := by
  simp [sequencePart]

end Reading

namespace Site

variable (src : Source) (s : Site)

@[simp] theorem classParts_strip : s.strip.classParts src = s.classParts src := by
  simp [classParts, Function.comp_def]

/-- A comment in a template is part of the text around it. -/
theorem templatePieces_stripAll (start stop : Nat) (cs : List Reading) :
    templatePieces src stop start (Reading.stripAll cs) = templatePieces src stop start cs := by
  refine Reading.stripAll_invariant (fun start c cs hc => ?_) (fun start c cs cs' ih => ?_) start cs
  · have hkind : c.kind ≠ "template_substitution" :=
      Label.kind_ne_of_isComment (Bool.and_eq_true_iff.1 hc).1 (by decide)
    simp [templatePieces, hkind]
  · simp [templatePieces, ih]

@[simp] theorem template_strip : s.strip.template src = s.template src := by
  rw [template, children_strip, templatePieces_stripAll]
  rfl

@[simp] theorem patternOnly?_strip : s.strip.patternOnly? src = s.patternOnly? src := by
  simp [patternOnly?, Reading.elements_stripAll, Function.comp_def]

@[simp] theorem call_strip : s.strip.call src = s.call src := by
  simp [call]

@[simp] theorem arrow_strip : s.strip.arrow src = s.arrow src := by
  cases h : s.field? "parameter" <;> simp [arrow, h]

@[simp] theorem expression_strip : s.strip.expression src = s.expression src := by
  have hraw : expression.raw src s.strip = expression.raw src s := rfl
  have hpattern : expression.pattern src s.strip = expression.pattern src s := by
    simp [expression.pattern, hraw]
  have hfunction : expression.function src s.strip = expression.function src s := by
    simp [expression.function]
  -- A call with `new` may do without its arguments, so the two cases are told
  -- apart first.
  cases h : s.field? "arguments" <;>
    simp [expression, hraw, hpattern, hfunction, h, elements_stripAll,
      Option.any_map, Function.comp_def]

@[simp] theorem pattern_strip : s.strip.pattern src = s.pattern src := by
  simp [pattern]

end Site

namespace Reading

variable (src : Source) (r : Reading)

@[simp] theorem declarator_strip : r.strip.declarator src = r.declarator src := by
  simp [declarator]

@[simp] theorem forClause_strip : r.strip.forClause = r.forClause := by
  simp [forClause]

@[simp] theorem catchClause_strip : r.strip.catchClause src = r.catchClause src := by
  simp [catchClause]

@[simp] theorem switchCase_strip : r.strip.switchCase = r.switchCase := by
  simp [switchCase, filter_map, Function.comp_def]

@[simp] theorem importName_strip : r.strip.importName src = r.importName src := by
  cases h : r.site.field? "alias" <;> simp [importName, h]

@[simp] theorem exportName_strip : r.strip.exportName src = r.exportName src := by
  cases h : r.site.field? "alias" <;> simp [exportName, h]

@[simp] theorem importPart_strip : r.strip.importPart src = r.importPart src := by
  simp [importPart, Function.comp_def]

end Reading

namespace Site

variable (src : Source) (s : Site)

@[simp] theorem declarators_strip : s.strip.declarators src = s.declarators src := by
  simp [declarators, filter_map, Function.comp_def]

@[simp] theorem lexicalKind_strip : s.strip.lexicalKind = s.lexicalKind := by
  cases h : s.field? "kind" <;> cases h' : s.children.head? <;> simp [lexicalKind, h, h']

@[simp] theorem ifStatement_strip : s.strip.ifStatement src = s.ifStatement src := by
  simp [ifStatement]

@[simp] theorem forStatement_strip : s.strip.forStatement src = s.forStatement src := by
  simp [forStatement]

@[simp] theorem forTarget_strip (left : Reading) :
    s.strip.forTarget left.strip = s.forTarget left := by
  cases h : s.field? "kind" <;> simp [forTarget, h]

@[simp] theorem forInStatement_strip : s.strip.forInStatement src = s.forInStatement src := by
  simp [forInStatement, Option.any_map]

@[simp] theorem tryStatement_strip : s.strip.tryStatement src = s.tryStatement src := by
  simp [tryStatement]

@[simp] theorem switchStatement_strip : s.strip.switchStatement src = s.switchStatement src := by
  simp [switchStatement, Function.comp_def]

@[simp] theorem importStatement_strip : s.strip.importStatement src = s.importStatement src := by
  cases h : s.ofKind? "import_clause" <;> simp [importStatement, h, Function.comp_def]

@[simp] theorem exportAllStatement_strip (source : Node) :
    s.strip.exportAllStatement src source = s.exportAllStatement src source := by
  simp [exportAllStatement]

@[simp] theorem exportListStatement_strip (source : Option Node) :
    s.strip.exportListStatement src source = s.exportListStatement src source := by
  cases h : s.ofKind? "export_clause" <;> simp [exportListStatement, h, Function.comp_def]

@[simp] theorem exportStatement_strip : s.strip.exportStatement src = s.exportStatement src := by
  cases h : s.field? "declaration" <;> cases h' : s.field? "value" <;>
    cases h'' : s.hasToken "default" <;> simp [exportStatement, h, h', h'']

@[simp] theorem statement_strip : s.strip.statement src = s.statement src := by
  have hfunction : statement.function src s.strip = statement.function src s := by
    simp [statement.function]
  simp [statement, hfunction]

/-- A node means the same in each role without the comments below it. -/
theorem read_strip : (s.read src).strip = s.strip.read src := by
  simp [read, Reading.strip]

end Site

/-! ### Trees with more comments -/

namespace Concrete

/-- Whether a node is a comment with nothing below it. -/
def isComment (c : Concrete) : Bool :=
  c.label.isComment && c.children.isEmpty

/-- One comment is put into a tree, but not in front of a first child. -/
inductive AddsComment : Concrete → Concrete → Prop
  | here {label : Label} {before after : List Concrete} {comment : Concrete} :
    before ≠ [] → comment.isComment →
      AddsComment (node label (before ++ after)) (node label (before ++ comment :: after))
  | inside {label : Label} {before after : List Concrete} {c c' : Concrete} : AddsComment c c' →
      AddsComment (node label (before ++ c :: after)) (node label (before ++ c' :: after))

theorem readAll_eq (src : Source) (cs : List Concrete) : readAll src cs = cs.map (read src) := by
  induction cs with
  | nil => rfl
  | cons c cs ih => rw [readAll, ih, map_cons]

theorem isComment_read (src : Source) (c : Concrete) : (c.read src).isComment = c.isComment := by
  cases c with
  | node label children =>
    rw [read, readAll_eq]
    simp [Site.read, Reading.isComment, isComment, Reading.label, Reading.children,
      Concrete.label, Concrete.children]

/-- Stripping the reading of a node is reading it with stripped children. -/
theorem strip_read (src : Source) (label : Label) (children : List Concrete) :
    ((node label children).read src).strip =
      Site.read src ⟨label, stripAll (children.map (read src))⟩ := by
  rw [read, readAll_eq, Site.read_strip]
  rfl

theorem hasError_of_isComment {c : Concrete} (h : c.isComment) : c.hasError = false := by
  cases c with
  | node label children =>
    obtain ⟨hlabel, hchildren⟩ := Bool.and_eq_true_iff.1 h
    obtain rfl := List.isEmpty_iff.1 hchildren
    have herror : label.kind ≠ "ERROR" := Label.kind_ne_of_isComment hlabel (by decide)
    have hmissing : label.isMissing = false := (Label.isComment_iff.1 hlabel).2.2.2
    simp [hasError, anyError, Label.isError, herror, hmissing]

/-- The first error is found by the labels of the nodes alone. -/
theorem map_label_firstError? (c : Concrete) :
    c.firstError?.map label = (c.preorder.map label).find? Label.isError := by
  rw [firstError?_eq_firstIn?, find?_map]
  rfl

/-- The labels of a tree are that of its root and those below it. -/
theorem map_label_preorder (label : Label) (children : List Concrete) :
    (node label children).preorder.map Concrete.label =
      label :: children.flatMap fun c => c.preorder.map Concrete.label := by
  rw [preorder_eq, map_cons, map_flatMap]
  rfl

/-- The search for an error passes over a comment. -/
theorem find?_of_isComment {c : Concrete} (h : c.isComment) :
    (c.preorder.map label).find? Label.isError = none := by
  rw [← map_label_firstError?, firstError?_eq_firstIn?, Option.map_eq_none_iff]
  refine find?_eq_none.2 fun d hd herror => Bool.false_ne_true ?_
  rw [← hasError_of_isComment h]
  exact (hasError_iff c).2 ⟨d, hd, herror⟩

namespace AddsComment

variable {c c' : Concrete}

theorem label_eq (h : AddsComment c c') : c'.label = c.label := by
  cases h <;> rfl

/-- A node with a comment below it is not a comment, and was none before. -/
theorem isComment_eq_false (h : AddsComment c c') : c.isComment = false ∧ c'.isComment = false := by
  cases h with
  | here hbefore => simp [isComment, children, hbefore]
  | inside => simp [isComment, children]

/-- A comment leaves no trace in a reading without comments. -/
theorem strip_read (h : AddsComment c c') (src : Source) :
    (c'.read src).strip = (c.read src).strip := by
  induction h with
  | @here label before after comment hbefore hcomment =>
    obtain ⟨b, before, rfl⟩ := exists_cons_of_ne_nil hbefore
    rw [Concrete.strip_read, Concrete.strip_read]
    simp [stripAll, stripRest_eq, isComment_read, hcomment]
  | @inside label before after c c' h ih =>
    obtain ⟨hc, hc'⟩ := h.isComment_eq_false
    rw [Concrete.strip_read, Concrete.strip_read]
    cases before with
    | nil => simp [stripAll, ih]
    | cons b before => simp [stripAll, stripRest_eq, isComment_read, hc, hc', ih]

theorem program_eq (h : AddsComment c c') (src : Source) : c'.program src = c.program src := by
  have hread (c : Concrete) :
      c.program src = Node.program <$> (c.read src).strip.site.named.mapM Reading.statement := by
    simp [program, Function.comp_def]
  rw [hread, hread, h.strip_read]

theorem hasError_eq (h : AddsComment c c') : c'.hasError = c.hasError := by
  induction h with
  | here _ hcomment => simp [hasError, anyError_eq, hasError_of_isComment hcomment]
  | inside _ ih => simp [hasError, anyError_eq, ih]

/-- The first error is found in the same node, whose range alone is reported. -/
theorem firstError?_eq (h : AddsComment c c') :
    c'.firstError?.map label = c.firstError?.map label := by
  rw [map_label_firstError?, map_label_firstError?]
  induction h with
  | here _ hcomment =>
    simp only [map_label_preorder, flatMap_append, flatMap_cons, find?_cons,
      find?_append, find?_of_isComment hcomment, Option.none_or]
  | inside _ ih =>
    simp only [map_label_preorder, flatMap_append, flatMap_cons,
      find?_cons, find?_append, ih]

theorem parse_eq (h : AddsComment c c') (src : Source) : c'.parse src = c.parse src := by
  have hbad (c : Concrete) : (c.firstError?.getD c).label =
      (c.firstError?.map label).getD c.label := by
    cases c.firstError? <;> rfl
  rw [parse, parse, h.hasError_eq, h.program_eq, syntaxFault, syntaxFault, hbad, hbad,
    h.firstError?_eq, h.label_eq]

end AddsComment

/-- Comments do not influence parsing. Put any number of comments into a
    concrete tree, each anywhere but in front of the first child of a node: over
    the same source, the tree is converted to the same program or fails with the
    same fault, also when trees that mark an error are refused first. -/
theorem parse_eq_of_addsComment {root root' : Concrete}
    (h : Relation.ReflTransGen AddsComment root root') (src : Source) :
    root'.program src = root.program src ∧ root'.parse src = root.parse src := by
  induction h with
  | refl => exact ⟨rfl, rfl⟩
  | tail _ hadd ih => exact ⟨(hadd.program_eq src).trans ih.1, (hadd.parse_eq src).trans ih.2⟩

/-- The tree of a name as a statement, with nodes after both. -/
def nameStatement (inner outer : List Concrete) : Concrete :=
  node ⟨"program", none, true, false, 0, 10⟩
    ([node ⟨"expression_statement", none, true, false, 0, 7⟩
      ([node ⟨"identifier", none, true, false, 0, 1⟩ []] ++ inner ++
        [node ⟨";", none, false, false, 6, 7⟩ []])] ++
        outer)

/-- The source `x/*a*/;//b` means what it means without its two comments. -/
theorem parse_nameStatement :
    (nameStatement [node ⟨"comment", none, true, false, 1, 6⟩ []]
      [node ⟨"comment", none, true, false, 7, 10⟩ []]).parse
      ([120, 47, 42, 97, 42, 47, 59, 47, 47, 98].map UInt8.ofNat) =
        .ok (.program [.exprStmt (.identifier "x")]) := by
  have hinner : AddsComment (nameStatement [] [])
      (nameStatement [node ⟨"comment", none, true, false, 1, 6⟩ []] []) :=
    @AddsComment.inside _ [] [] _ _ (@AddsComment.here _ [_] [_] _ (by decide) (by decide))
  have houter : AddsComment (nameStatement [node ⟨"comment", none, true, false, 1, 6⟩ []] [])
      (nameStatement [node ⟨"comment", none, true, false, 1, 6⟩ []]
        [node ⟨"comment", none, true, false, 7, 10⟩ []]) :=
    @AddsComment.here _ [_] [] _ (by decide) (by decide)
  exact (parse_eq_of_addsComment (.tail (.single hinner) houter) _).2.trans rfl

end Concrete

end Resugar
