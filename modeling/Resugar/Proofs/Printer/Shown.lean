import Resugar.Proofs.Printer.Place

/-!
# What is shown in a printed text

Nearly everything in a tree has a place in its text. What has none is listed
here: `Node.Skips` names the nodes that give no text at all, and `Node.Inlines`
those that give their text only in parts. All others have a place
(`Node.exists_places`), and so has what stands below them, some levels deeper.
-/

namespace Resugar

open List

namespace Segments

/-- The node of a piece, if it is the text of one, with the path to it. -/
@[simp] def node? : Segment → Option (Path × Node)
  | .child path n => some (path, n)
  | .nested path n => some (path, n)
  | _ => none

/-- The nodes that pieces are the texts of, with the paths to them. -/
def nodes (ss : Segments) : List (Path × Node) :=
  ss.filterMap node?

variable {path : Path} {n : Node}

@[simp] theorem nodes_nil : nodes [] = [] := rfl

@[simp] theorem nodes_cons (s : Segment) (ss : Segments) :
    nodes (s :: ss) = (node? s).toList ++ nodes ss := by
  cases s <;> rfl

@[simp] theorem nodes_append (ss ss' : Segments) : nodes (ss ++ ss') = nodes ss ++ nodes ss' :=
  filterMap_append

@[simp] theorem nodes_mark (t : Text) : nodes (mark t) = [] := rfl

@[simp] theorem nodes_own (t : Text) : nodes (own path t) = [] := rfl

@[simp] theorem nodes_child : nodes (child path n) = [(path, n)] := rfl

@[simp] theorem nodes_concat (pieces : List Segments) :
    nodes (concat pieces) = pieces.flatMap nodes := by
  induction pieces with
  | nil => rfl
  | cons ss pieces ih =>
    rw [concat, flatten_cons, nodes_append, ← concat, ih, flatMap_cons]

/-- Separators are no nodes. -/
@[simp] theorem nodes_join (sep : Text) (pieces : List Segments) :
    nodes (join sep pieces) = pieces.flatMap nodes := by
  induction pieces with
  | nil => rfl
  | cons ss pieces ih =>
    cases pieces with
    | nil => simp [join, intercalate]
    | cons ss' pieces =>
      rw [flatMap_cons, ← ih]
      simp [join, intercalate]

@[simp] theorem nodes_parens (ss : Segments) : nodes (parens ss) = nodes ss := by
  simp [parens]

@[simp] theorem nodes_parensIf (needed : Bool) (ss : Segments) :
    nodes (parensIf needed ss) = nodes ss := by
  cases needed <;> simp [parensIf]

@[simp] theorem nodes_tuple (pieces : List Segments) :
    nodes (tuple pieces) = pieces.flatMap nodes := by
  simp [tuple]

@[simp] theorem nodes_bracedList (pieces : List Segments) :
    nodes (bracedList pieces) = pieces.flatMap nodes := by
  cases pieces <;> simp [bracedList]

@[simp] theorem nodes_brackets (pieces : List (Option Segments)) :
    nodes (brackets pieces) = pieces.flatMap fun o => nodes (o.getD []) := by
  simp [brackets, flatMap_map]

@[simp] theorem nodes_flatMap {α : Type} (f : α → Segments) (as : List α) :
    nodes (as.flatMap f) = as.flatMap fun a => nodes (f a) := by
  induction as with
  | nil => rfl
  | cons a as ih => rw [flatMap_cons, nodes_append, ih, flatMap_cons]

@[simp] theorem nodes_braces (items : List (Path × Node)) : nodes (braces items) = items := by
  cases items with
  | nil => rfl
  | cons item items => simp [braces]

@[simp] theorem nodes_elim (o : Option Node) (ss : Segments) (f : Node → Segments) :
    nodes (o.elim ss f) = o.elim (nodes ss) fun n => nodes (f n) := by
  cases o <;> rfl

@[simp] theorem nodes_ite (p : Prop) [Decidable p] (ss ss' : Segments) :
    nodes (if p then ss else ss') = if p then nodes ss else nodes ss' := by
  split_ifs <;> rfl

end Segments

namespace Node

open Segments

/-! ## The nodes of the parts of a text -/

section

variable {path : Path} {n : Node}

@[simp] theorem nodes_operandSegments (outer : Nat) (side : Side) (operator : Option Text) :
    (operandSegments path n outer side operator).nodes = [(path, n)] := by
  simp [operandSegments]

@[simp] theorem nodes_logicalSegments (operator : Text) (outer : Nat) (side : Side) :
    (logicalSegments path n operator outer side).nodes = [(path, n)] := by
  simp [logicalSegments]

@[simp] theorem nodes_primarySegments : (primarySegments path n).nodes = [(path, n)] := by
  simp [primarySegments]

@[simp] theorem nodes_itemSegments : (itemSegments path n).nodes = [(path, n)] := by
  simp [itemSegments]

@[simp] theorem nodes_keySegments (key : Node) (computed : Bool) :
    (keySegments key computed).nodes = [([.field "key"], key)] := by
  simp [keySegments]

@[simp] theorem flatMap_listSegments (base : Path) (name : String) (ns : List Node) :
    (listSegments base name ns).flatMap nodes = steps base name ns := by
  simp [listSegments, flatMap_map]

@[simp] theorem flatMap_itemsSegments (name : String) (ns : List Node) :
    (itemsSegments name ns).flatMap nodes = steps [] name ns := by
  simp [itemsSegments, flatMap_map]

@[simp] theorem nodes_optionSegments (before after : Text) (name : String) (o : Option Node) :
    (optionSegments before name o after).nodes = o.toList.map fun n => ([.field name], n) := by
  cases o <;> simp [optionSegments]

@[simp] theorem nodes_functionSegments (name : Option Node) (params : List Node) (body : Node)
    (isAsync isGenerator : Bool) :
    (functionSegments name params body isAsync isGenerator).nodes =
      name.toList.map (fun n => ([.field "id"], n)) ++ steps [] "params" params ++
      [([.field "body"], body)] := by
  simp [functionSegments]

@[simp] theorem nodes_methodSegments (key : Node) (computed : Bool) (params : List Node)
    (body : Node) (isStatic isAsync isGenerator : Bool) (accessor : Text) :
    (methodSegments key computed params body isStatic isAsync isGenerator accessor).nodes =
      ([.field "key"], key) :: steps [.field "value"] "params" params ++
      [([.field "value", .field "body"], body)] := by
  simp [methodSegments]

@[simp] theorem nodes_classSegments (name superClass : Option Node) (body : Node) :
    (classSegments name superClass body).nodes = name.toList.map (fun n => ([.field "id"], n)) ++
      superClass.toList.map (fun n => ([.field "superClass"], n)) ++ [([.field "body"], body)] := by
  cases superClass <;> simp [classSegments]

@[simp] theorem nodes_variablesSegments (base : Path) (kind : VariableKind)
    (declarators : List Node) :
    (variablesSegments base kind declarators).nodes = steps base "declarations" declarators := by
  simp [variablesSegments]

@[simp] theorem nodes_receiverSegments (computed : Bool) :
    (receiverSegments n computed).nodes = [([.field "object"], n)] := by
  rw [receiverSegments]
  split_ifs <;> simp

/-- Expressions of a template are shown as far as there are pieces. -/
@[simp] theorem nodes_templateSegments (i : Nat) (quasis : List Text) (expressions : List Node) :
    (templateSegments i quasis expressions).nodes = ((expressions.zipIdx i).take quasis.length).map
      fun p => ([.field "expressions", .index p.2], p.1) := by
  induction quasis generalizing i expressions with
  | nil => rfl
  | cons q quasis ih =>
    cases expressions with
    | nil => simp [templateSegments, ih]
    | cons e es => simp [templateSegments, ih]

end

/-! ## The nodes right below a node -/

/-- The nodes in a field, with the paths to them. -/
def fieldHops (f : Field Node) : List (Path × Node) :=
  match f.slot with
  | .single c => c.toList.map fun c => ([.field f.name], c)
  | .list items => (holeSteps f.name items).filterMap id

/-- The nodes right below a node, with the paths to them. -/
def hops (n : Node) : List (Path × Node) :=
  n.fields.flatMap fieldHops

@[simp] theorem fieldHops_single (name : String) (walked : Bool) (c : Option Node) :
    fieldHops (.single name walked c) = c.toList.map fun c => ([.field name], c) := rfl

@[simp] theorem fieldHops_holes (name : String) (walked : Bool) (items : List (Option Node)) :
    fieldHops (.list name walked items) = (holeSteps name items).filterMap id := rfl

@[simp] theorem mem_holeSteps_map {item : Path × Node} (name : String) (ns : List Node) :
    some item ∈ holeSteps name (ns.map some) ↔ item ∈ steps [] name ns := by
  simp [holeSteps, steps, zipIdx_map]

@[simp] theorem mem_elim {path base : Path} {n : Node} (o : Option Node) :
    (path, n) ∈ o.elim [] (fun n => [(base, n)]) ↔ o = some n ∧ base = path := by
  cases o <;> simp [eq_comm, and_comm]

variable {n m c body : Node} {t : Text} {path rest : Path} {name : String}

theorem hop_ne_nil (h : (path, c) ∈ n.hops) : path ≠ [] := by
  obtain ⟨f, _, h⟩ := mem_flatMap.1 h
  rintro rfl
  cases hslot : f.slot <;> simp [fieldHops, hslot, holeSteps] at h

/-- The contents of a field are among the nodes right below. -/
theorem mem_hops_of_slot? {slot : Slot Node} {item : Path × Node} (h : n.slot? name = some slot)
    (hitem : item ∈ fieldHops ⟨name, true, slot⟩) : item ∈ n.hops := by
  obtain ⟨f, hf, rfl⟩ := Option.map_eq_some_iff.1 h
  have hname : f.name = name := by simpa using find?_some hf
  refine mem_flatMap.2 ⟨f, mem_of_find?_eq_some hf, ?_⟩
  subst hname
  exact hitem

/-- What stands in a list stands below the node. -/
theorem mem_hops_of_list {items : List (Option Node)} {i : Nat}
    (h : n.slot? name = some (.list items)) (hc : items[i]? = some (some c)) :
    ([.field name, .index i], c) ∈ n.hops := by
  refine mem_hops_of_slot? h ?_
  have hstep : (holeSteps name items)[i]? = some (some ([.field name, .index i], c)) := by
    rw [holeSteps, getElem?_map, getElem?_zipIdx, hc]
    simp
  exact mem_filterMap.2 ⟨_, mem_of_getElem? hstep, rfl⟩

theorem mem_hops_of_single (h : n.slot? name = some (.single (some c))) :
    ([.field name], c) ∈ n.hops :=
  mem_hops_of_slot? h (by simp [fieldHops])

/-- A path ends where it begins, or leads on from a node right below. -/
theorem at?_cases (h : n.at? path = some m) :
    (path = [] ∧ m = n) ∨ ∃ hop c rest, (hop, c) ∈ n.hops ∧ path = hop ++ rest ∧
      c.at? rest = some m := by
  revert h
  fun_cases at? n path with
  | case1 => exact fun h => .inl ⟨rfl, (Option.some.inj h).symm⟩
  | case2 _ name i rest items hslot =>
    intro h
    obtain ⟨c, hc, hm⟩ := Option.bind_eq_some_iff.1 h
    exact .inr ⟨_, c, rest, mem_hops_of_list hslot (Option.join_eq_some_iff.1 hc), rfl, hm⟩
  | case4 _ name rest _ child hslot =>
    intro h
    obtain ⟨c, rfl, hm⟩ := Option.bind_eq_some_iff.1 h
    exact .inr ⟨_, c, rest, mem_hops_of_single hslot, rfl, hm⟩
  | case3 | case5 | case6 => exact fun h => by cases h

/-! ## What is not shown -/

/-- The nodes below a node that, with all below them, give no text. -/
inductive Skips : Node → Path → Prop where
  /-- The key of an entry that the value stands for. -/
  | key {key value : Node} {kind : EntryKind} {computed shorthand isMethod : Bool} :
    (shorthand && !computed && value.isShorthandFor key) = true →
    Skips (entry key value kind computed shorthand isMethod) [.field "key"]
  | entryName {key body : Node} {id : Option Node} {params : List Node}
    {isAsync isGenerator : Bool} {kind : EntryKind} {computed shorthand isMethod : Bool} :
    (kind ≠ .init || isMethod) = true →
    Skips
      (entry key (functionExpr id params body isAsync isGenerator) kind computed shorthand isMethod)
      [.field "value", .field "id"]
  | methodName {key value : Node} {kind : MethodKind} {isStatic computed : Bool} :
    Skips (method key value kind isStatic computed) [.field "value", .field "id"]
  /-- An expression of a template with no piece of text before it. -/
  | expression {quasis : List Text} {expressions : List Node} {i : Nat} : quasis.length ≤ i →
    Skips (template quasis expressions) [.field "expressions", .index i]
  | child {name : Text} {attributes children : List Node} {i : Nat} :
    Skips (element name attributes children true) [.field "children", .index i]
  /-- A string that is the value of an attribute is not written as the literal
      is spelled. -/
  | attributeString {name text : Text} {spelling : Option Text} :
    Skips (namedAttribute name (some (literal (.string text) spelling))) [.field "value"]
  /-- What an import is bound to, if it has the name of what is imported. -/
  | importBinding {imported binding : Node} : imported.importsSame binding = true →
    Skips (importName imported binding) [.field "local"]
  /-- The name of an export, if it is that of what is exported. -/
  | exportedName {binding exported : Node} : binding.text = exported.text →
    Skips (exportName binding exported) [.field "exported"]
  | specifier {declaration : Node} {specifiers : List Node} {source : Option Node} {i : Nat} :
    Skips (exportNamed (some declaration) specifiers source) [.field "specifiers", .index i]
  | source {declaration : Node} {specifiers : List Node} {source : Option Node} :
    Skips (exportNamed (some declaration) specifiers source) [.field "source"]

/-- The nodes below a node that give their text only in parts: a function that
    is a method, and a declaration at the head of a loop. -/
inductive Inlines : Node → Path → Prop where
  | entry {key body : Node} {id : Option Node} {params : List Node} {isAsync isGenerator : Bool}
    {kind : EntryKind} {computed shorthand isMethod : Bool} :
    (kind ≠ .init || isMethod) = true →
    Inlines
      (entry key (functionExpr id params body isAsync isGenerator) kind computed shorthand isMethod)
      [.field "value"]
  | method {key value : Node} {kind : MethodKind} {isStatic computed : Bool} :
    Inlines (method key value kind isStatic computed) [.field "value"]
  | loop {kind : VariableKind} {declarators : List Node} {test step : Option Node} {body : Node} :
    Inlines (forStmt (some (varDecl kind declarators)) test step body) [.field "init"]
  | loopOver {kind : VariableKind} {declarators : List Node}
    {right body : Node} {isOf isAwait : Bool} :
    Inlines (forInStmt (varDecl kind declarators) right body isOf isAwait) [.field "left"]

/-- What has no place in the text of a node. -/
inductive Hides : Node → Path → Prop where
  | skipped {n : Node} {path rest : Path} : n.Skips path → Hides n (path ++ rest)
  | inlined {n : Node} {path : Path} : n.Inlines path → Hides n path
  | inside {n c : Node} {path rest : Path} :
    (path, c) ∈ n.hops → Hides c rest → Hides n (path ++ rest)

theorem not_hides_nil (n : Node) : ¬n.Hides [] := by
  have hne {path : Path} (h : n.Hides path) : path ≠ [] := by
    cases h with
    | skipped h => cases h <;> simp
    | inlined h => cases h <;> simp
    | inside h _ => simp [hop_ne_nil h]
  exact fun h => hne h rfl

/-- Where a node skips and inlines nothing, what is not hidden right below is
    not hidden. -/
theorem not_hides_of_hops (hskips : ∀ p, ¬n.Skips p) (hinlines : ∀ p, ¬n.Inlines p)
    (h : ∀ p c, (p, c) ∈ n.hops → ∀ rest, p ++ rest = path → ¬c.Hides rest) : ¬n.Hides path := by
  intro hhides
  cases hhides with
  | skipped hskipped => exact hskips _ hskipped
  | inlined hinlined => exact hinlines _ hinlined
  | inside hmem hc => exact h _ _ hmem _ rfl hc

theorem getElem?_steps (base : Path) (name : String) (ns : List Node) (i : Nat) :
    (steps base name ns)[i]? = ns[i]?.map fun n => (base ++ [.field name, .index i], n) := by
  rw [steps, getElem?_map, getElem?_zipIdx, Option.map_map]
  simp [Function.comp_def]

/-- The nodes of a list are reached by the list and their position. -/
theorem mem_steps {base : Path} {ns : List Node} :
    (path, c) ∈ steps base name ns ↔
      ∃ i, ns[i]? = some c ∧ path = base ++ [.field name, .index i] := by
  simp only [mem_iff_getElem?, getElem?_steps, Option.map_eq_some_iff, Prod.mk.injEq]
  refine exists_congr fun i => ⟨?_, ?_⟩
  · rintro ⟨_, hc, rfl, rfl⟩
    exact ⟨hc, rfl⟩
  · rintro ⟨hc, rfl⟩
    exact ⟨c, hc, rfl, rfl⟩

/-- An expression of a template is shown, or there is no piece after it. -/
theorem hop_cases_template {quasis : List Text} {expressions : List Node}
    (h : (path, c) ∈ (template quasis expressions).hops) :
    (path, c) ∈ (template quasis expressions).segments.nodes ∨
      (template quasis expressions).Skips path := by
  have h : (path, c) ∈ steps [] "expressions" expressions := by simpa [hops, fields] using h
  obtain ⟨i, hi, rfl⟩ := mem_steps.1 h
  by_cases hlt : i < quasis.length
  · have hmem : ((steps [] "expressions" expressions).take quasis.length)[i]? =
        some ([.field "expressions", .index i], c) := by
      rw [getElem?_take_of_lt hlt, getElem?_steps, hi]
      rfl
    exact .inl (by simpa [steps] using mem_of_getElem? hmem)
  · exact .inr (.expression (Nat.le_of_not_lt hlt))

/-- The key and the value of an entry are shown; a shorthand shows only one, and
    a method its function in parts. -/
theorem hop_cases_entry {key value : Node} {kind : EntryKind} {computed shorthand isMethod : Bool}
    (h : (path, c) ∈ (entry key value kind computed shorthand isMethod).hops) :
    (path, c) ∈ (entry key value kind computed shorthand isMethod).segments.nodes ∨
      (entry key value kind computed shorthand isMethod).Skips path ∨
      (entry key value kind computed shorthand isMethod).Inlines path := by
  have h : path = [.field "key"] ∧ c = key ∨ path = [.field "value"] ∧ c = value := by
    simpa [hops, fields] using h
  cases hfunction : value.isFunctionExpr with
  | true =>
    obtain ⟨id, params, body, isAsync, isGenerator, rfl⟩ := exists_of_isFunctionExpr hfunction
    rw [segments]
    -- a method is printed from the parts of its function
    split_ifs with hshort hmethod
    · cases key <;> simp [isShorthandFor] at hshort
    · obtain ⟨rfl, rfl⟩ | ⟨rfl, rfl⟩ := h
      · exact .inl (by simp)
      · exact .inr (.inr (.entry hmethod))
    · exact .inl (by simpa using h)
  | false =>
    rw [segments]
    swap
    · rintro _ _ _ _ _ rfl
      cases hfunction
    split_ifs with hshort
    · obtain ⟨rfl, rfl⟩ | ⟨rfl, rfl⟩ := h
      · exact .inr (.inl (.key hshort))
      · exact .inl (by simp)
    · exact .inl (by simpa using h)

theorem mem_headSegments (hdecl : ¬∃ kind declarators, n = varDecl kind declarators) :
    ([.field name], n) ∈ (headSegments name n).nodes := by
  cases n
  case varDecl => exact absurd ⟨_, _, rfl⟩ hdecl
  all_goals simp [headSegments]

/-- The parts of a loop are shown; a declaration at its head in parts. -/
theorem hop_cases_forStmt {init test step : Option Node}
    (h : (path, c) ∈ (forStmt init test step body).hops) :
    (path, c) ∈ (forStmt init test step body).segments.nodes ∨
      (forStmt init test step body).Inlines path := by
  by_cases hinit : init = some c ∧ [.field "init"] = path
  · obtain ⟨rfl, rfl⟩ := hinit
    by_cases hdecl : ∃ kind declarators, c = varDecl kind declarators
    · obtain ⟨kind, declarators, rfl⟩ := hdecl
      exact .inr .loop
    · exact .inl (by simp [mem_headSegments hdecl])
  · have h := (show _ ∨ _ by simpa [hops, fields] using h).resolve_left hinit
    exact .inl (by simp [h])

theorem hop_cases_forInStmt {left right : Node} {isOf isAwait : Bool}
    (h : (path, c) ∈ (forInStmt left right body isOf isAwait).hops) :
    (path, c) ∈ (forInStmt left right body isOf isAwait).segments.nodes ∨
      (forInStmt left right body isOf isAwait).Inlines path := by
  by_cases hleft : path = [.field "left"] ∧ c = left
  · obtain ⟨rfl, rfl⟩ := hleft
    by_cases hdecl : ∃ kind declarators, c = varDecl kind declarators
    · obtain ⟨kind, declarators, rfl⟩ := hdecl
      exact .inr .loopOver
    · exact .inl (by simp [mem_headSegments hdecl])
  · have h := (show _ ∨ _ by simpa [hops, fields] using h).resolve_left hleft
    exact .inl (by simp [h])

/-- The value of an attribute is shown, unless it is a string. -/
theorem hop_cases_namedAttribute {name : Text} {value : Option Node}
    (h : (path, c) ∈ (namedAttribute name value).hops) :
    (path, c) ∈ (namedAttribute name value).segments.nodes ∨
      (namedAttribute name value).Skips path := by
  have h : value = some c ∧ [.field "value"] = path := by simpa [hops, fields] using h
  obtain ⟨rfl, rfl⟩ := h
  by_cases hstring : ∃ text spelling, c = literal (.string text) spelling
  · obtain ⟨text, spelling, rfl⟩ := hstring
    exact .inr .attributeString
  by_cases hcontainer : ∃ e, c = container e
  · obtain ⟨e, rfl⟩ := hcontainer
    exact .inl (by simp)
  · rw [segments]
    · exact .inl (by simp)
    · exact fun text spelling h => hstring ⟨text, spelling, h⟩
    · exact fun e h => hcontainer ⟨e, h⟩

/-- A method shows its function in parts. -/
theorem hop_cases_method {key value : Node} {kind : MethodKind} {isStatic computed : Bool}
    (ht : (method key value kind isStatic computed).print = .ok t)
    (h : (path, c) ∈ (method key value kind isStatic computed).hops) :
    (path, c) ∈ (method key value kind isStatic computed).segments.nodes ∨
      (method key value kind isStatic computed).Inlines path := by
  have h : path = [.field "key"] ∧ c = key ∨ path = [.field "value"] ∧ c = value := by
    simpa [hops, fields] using h
  obtain ⟨rfl, rfl⟩ | ⟨rfl, rfl⟩ := h
  · cases value
    case functionExpr | functionDecl => exact .inl (by simp)
    all_goals cases ht
  · exact .inr .method

/-- An import shows its specifiers, those in braces last, and its source. -/
theorem nodes_importDecl (specifiers : List Node) (source : Node) :
    (importDecl specifiers source).segments.nodes = (steps [] "specifiers" specifiers).filter
      (!·.2.isImportName) ++ (steps [] "specifiers" specifiers).filter (·.2.isImportName) ++
      [([.field "source"], source)] := by
  have hnamed (pieces : List Segments) :
      (if pieces.isEmpty then [] else [Segments.bracedList pieces]).flatMap nodes =
        pieces.flatMap nodes := by
    cases pieces <;> simp
  have hfrom (pieces : List Segments) : nodes
      (if pieces.isEmpty then [] else Segments.concat [Segments.join ", " pieces, mark " from "]) =
        pieces.flatMap nodes := by
    cases pieces <;> simp
  have hchild (items : List (Path × Node)) :
      (items.map fun s => child s.1 s.2).flatMap nodes = items := by
    simp [flatMap_map]
  rw [segments, nodes_concat]
  simp only [flatMap_cons, flatMap_nil, flatMap_append, nodes_mark, nodes_child,
    hfrom, hnamed, hchild, nil_append, append_nil, append_assoc]

theorem mem_nodes_importDecl {specifiers : List Node} {source : Node}
    (h : (path, c) ∈ (importDecl specifiers source).hops) :
    (path, c) ∈ (importDecl specifiers source).segments.nodes := by
  have h : (path, c) ∈ steps [] "specifiers" specifiers ∨
      path = [.field "source"] ∧ c = source := by
    simpa [hops, fields] using h
  rw [nodes_importDecl]
  cases hname : c.isImportName <;> simp [h, hname]

/-- A node right below another one gives text, is skipped, or inlined. -/
theorem hop_cases (ht : n.print = .ok t) (h : (path, c) ∈ n.hops) :
    (path, c) ∈ n.segments.nodes ∨ n.Skips path ∨ n.Inlines path := by
  cases n
  -- first the kinds that do not simply print what stands in their fields, one
  -- after the other
  case template => exact (hop_cases_template h).imp_right .inl
  case entry => exact hop_cases_entry h
  case array elements | arrayPattern elements =>
    have h : some (path, c) ∈ holeSteps "elements" elements := by simpa [hops, fields] using h
    exact .inl (by simpa using ⟨_, h, by simp⟩)
  case element name attributes children selfClosing =>
    cases selfClosing with
    | false => exact .inl (by simpa [hops, fields] using h)
    | true =>
      have h : (path, c) ∈ steps [] "attributes" attributes ∨
          (path, c) ∈ steps [] "children" children := by
        simpa [hops, fields] using h
      obtain h | h := h
      · exact .inl (by simpa using h)
      · obtain ⟨i, _, rfl⟩ := mem_steps.1 h
        exact .inr (.inl .child)
  case namedAttribute => exact (hop_cases_namedAttribute h).imp_right .inl
  case forStmt => exact (hop_cases_forStmt h).imp_right .inr
  case forInStmt => exact (hop_cases_forInStmt h).imp_right .inr
  case method => exact (hop_cases_method ht h).imp_right .inr
  case importName imported binding =>
    have h : path = [.field "imported"] ∧ c = imported ∨ path = [.field "local"] ∧ c = binding := by
      simpa [hops, fields] using h
    rw [segments]
    split_ifs with hsame
    · obtain ⟨rfl, rfl⟩ | ⟨rfl, rfl⟩ := h
      · exact .inl (by simp)
      · exact .inr (.inl (.importBinding hsame))
    · exact .inl (by simpa using h)
  case importDecl => exact .inl (mem_nodes_importDecl h)
  case exportName binding exported =>
    have h : path = [.field "local"] ∧ c = binding ∨ path = [.field "exported"] ∧ c = exported := by
      simpa [hops, fields] using h
    rw [segments]
    split_ifs with hsame
    · obtain ⟨rfl, rfl⟩ | ⟨rfl, rfl⟩ := h
      · exact .inl (by simp)
      · exact .inr (.inl (.exportedName hsame))
    · exact .inl (by simpa using h)
  case exportNamed declaration specifiers source =>
    cases declaration with
    | none => exact .inl (by simpa [hops, fields] using h)
    | some declaration =>
      have h : path = [.field "declaration"] ∧ c = declaration ∨
          (path, c) ∈ steps [] "specifiers" specifiers ∨ source = some c ∧
          [.field "source"] = path := by
        simpa [hops, fields] using h
      obtain ⟨rfl, rfl⟩ | h | ⟨_, rfl⟩ := h
      · exact .inl (by simp)
      · obtain ⟨i, _, rfl⟩ := mem_steps.1 h
        exact .inr (.inl .specifier)
      · exact .inr (.inl .source)
  case exportAll => exact .inl (by simpa [hops, fields, or_comm] using h)
  case raw | identifier | literal | thisExpr | superExpr | markupText | emptyStmt | debuggerStmt |
    breakStmt | continueStmt =>
    simp [hops, fields] at h
  all_goals exact .inl (by simpa [hops, fields] using h)

/-- What stands below a function is its name, a parameter or its body. -/
theorem hop_cases_function {name : Option Node} {params : List Node} {hop : Path}
    (h : (hop, c) ∈ [Field.single "id" true name, .list "params" true (params.map some),
      .single "body" true (some body)].flatMap fieldHops) :
    hop = [.field "id"] ∨ (.field "value" :: hop, c) ∈ steps [.field "value"] "params" params ∨
      hop = [.field "body"] ∧ c = body := by
  have h : name = some c ∧ [.field "id"] = hop ∨ (hop, c) ∈ steps [] "params" params ∨
      hop = [.field "body"] ∧ c = body := by
    simpa using h
  obtain ⟨_, rfl⟩ | h | h := h
  · exact .inl rfl
  · obtain ⟨i, hi, rfl⟩ := mem_steps.1 h
    exact .inr (.inl (mem_steps.2 ⟨i, hi, rfl⟩))
  · exact .inr (.inr h)

/-- What stands below an inlined node gives text, or is skipped. -/
theorem inlines_cases (ht : n.print = .ok t) (hinlines : n.Inlines path) (h : (path, c) ∈ n.hops)
    {hop : Path} {d : Node} (hd : (hop, d) ∈ c.hops) :
    (path ++ hop, d) ∈ n.segments.nodes ∨ n.Skips (path ++ hop) := by
  cases hinlines with
  | @entry key body id params isAsync isGenerator _ computed shorthand _ hmethod =>
    obtain rfl : c = functionExpr id params body isAsync isGenerator := by
      simpa [hops, fields] using h
    have hshort : (shorthand && !computed &&
        (functionExpr id params body isAsync isGenerator).isShorthandFor key) = false := by
      cases key <;> simp [isShorthandFor]
    rw [segments, if_neg (by simp [hshort]), if_pos hmethod]
    obtain rfl | hd | ⟨rfl, rfl⟩ := hop_cases_function hd
    · exact .inr (.entryName hmethod)
    · exact .inl (by simp [hd])
    · exact .inl (by simp)
  | @method _ value =>
    obtain rfl : c = value := by simpa [hops, fields] using h
    cases c
    case functionExpr | functionDecl =>
      obtain rfl | hd | ⟨rfl, rfl⟩ := hop_cases_function hd
      · exact .inr .methodName
      · exact .inl (by simp [hd])
      · exact .inl (by simp)
    all_goals cases ht
  | @loop kind declarators =>
    obtain rfl : c = varDecl kind declarators := by simpa [hops, fields, eq_comm] using h
    have hd : (hop, d) ∈ steps [] "declarations" declarators := by simpa [hops, fields] using hd
    obtain ⟨i, hi, rfl⟩ := mem_steps.1 hd
    exact .inl (by simp [headSegments, mem_steps, hi])
  | @loopOver kind declarators =>
    obtain rfl : c = varDecl kind declarators := by simpa [hops, fields] using h
    have hd : (hop, d) ∈ steps [] "declarations" declarators := by simpa [hops, fields] using hd
    obtain ⟨i, hi, rfl⟩ := mem_steps.1 hd
    exact .inl (by simp [headSegments, mem_steps, hi])

/-! ## What is shown -/

/-- A node at a path, with all below it, has a place, so many levels deep. -/
def Reveals (n : Node) (path : Path) (m : Node) : Prop :=
  ∃ k u, m.print = .ok u ∧ ∀ rest place, m.Places rest place →
    ∃ place', n.Places (path ++ rest) place' ∧ place'.text = place.text ∧
    place'.depth = place.depth + k

theorem Reveals.refl (ht : n.print = .ok t) : n.Reveals [] n :=
  ⟨0, t, ht, fun _ place hplace => ⟨place, hplace, rfl, rfl⟩⟩

theorem Reveals.trans (h : n.Reveals path c) (h' : c.Reveals rest m) :
    n.Reveals (path ++ rest) m := by
  obtain ⟨k, _, _, h⟩ := h
  obtain ⟨k', u, hu, h'⟩ := h'
  refine ⟨k' + k, u, hu, fun rest' place hplace => ?_⟩
  obtain ⟨place', hplace', htext', hdepth'⟩ := h' rest' place hplace
  obtain ⟨place'', hplace'', htext'', hdepth''⟩ := h _ place' hplace'
  exact ⟨place'', by rwa [append_assoc], htext''.trans htext',
    by rw [hdepth'', hdepth', Nat.add_assoc]⟩

/-- What is shown has a place in the text. -/
theorem Reveals.exists_place {u : Text} (h : n.Reveals path m) (hm : m.print = .ok u) :
    ∃ place, n.Places path place ∧ place.text = u := by
  obtain ⟨k, _, _, h⟩ := h
  obtain ⟨place, hplace, htext, _⟩ := h [] _ (.here hm)
  exact ⟨place, append_nil path ▸ hplace, htext⟩

theorem Reveals.exists_place_own {u : Text} (h : n.Reveals path m)
    (hown : .own rest u ∈ m.segments) :
    ∃ place, n.Places (path ++ rest) place ∧ place.text = u := by
  obtain ⟨k, v, hv, h⟩ := h
  obtain ⟨l, r, hsegments⟩ := append_of_mem hown
  obtain ⟨before, _, after, hbefore, _, hafter, _⟩ := (hsegments ▸ prints_segments hv).split
  obtain ⟨place, hplace, htext, _⟩ := h rest _ (.own hsegments hbefore hafter)
  exact ⟨place, hplace, htext⟩

/-- A node that gives a part of a text has a place in it. -/
theorem reveals_of_mem_nodes (ht : n.print = .ok t) (h : (path, c) ∈ n.segments.nodes) :
    n.Reveals path c := by
  obtain ⟨s, hs, hnode⟩ := mem_filterMap.1 h
  obtain ⟨l, r, hsegments⟩ := append_of_mem hs
  obtain ⟨before, v, after, hbefore, hv, hafter, rfl⟩ := (hsegments ▸ prints_segments ht).split
  cases s with
  | mark | own => cases hnode
  | child =>
    cases hnode
    exact ⟨0, v, hv, fun rest place hplace => ⟨_, .child hsegments hbefore hafter hplace, rfl, rfl⟩⟩
  | nested =>
    cases hnode
    obtain ⟨u, hu, _⟩ := bind_eq_ok.1 hv
    exact ⟨1, u, hu, fun rest place hplace =>
      ⟨_, .nested hsegments hbefore hafter hplace, rfl, rfl⟩⟩

/-- A path to what is not hidden goes on from a node that gives text. -/
theorem next_of_not_hides (ht : n.print = .ok t) (h : n.at? path = some m)
    (hhides : ¬n.Hides path) :
    (path = [] ∧ m = n) ∨ ∃ hop c rest, hop ≠ [] ∧ (hop, c) ∈ n.segments.nodes ∧
      path = hop ++ rest ∧ c.at? rest = some m ∧ ¬c.Hides rest := by
  obtain hhere | ⟨hop, c, rest, hhop, rfl, hm⟩ := at?_cases h
  · exact .inl hhere
  have hc : ¬c.Hides rest := fun h => hhides (.inside hhop h)
  obtain hshown | hskips | hinlines := hop_cases ht hhop
  · exact .inr ⟨hop, c, rest, hop_ne_nil hhop, hshown, rfl, hm, hc⟩
  · exact absurd (.skipped hskips) hhides
  -- an inlined node has no place, so the path goes on below it
  obtain ⟨rfl, rfl⟩ | ⟨hop', d, rest', hhop', rfl, hm'⟩ := at?_cases hm
  · rw [append_nil] at hhides
    exact absurd (.inlined hinlines) hhides
  obtain hshown | hskips := inlines_cases ht hinlines hhop hhop'
  · exact .inr ⟨hop ++ hop', d, rest',
      by simp [hop_ne_nil hhop], hshown, (append_assoc ..).symm, hm',
      fun h => hc (.inside hhop' h)⟩
  · rw [← append_assoc] at hhides
    exact absurd (.skipped hskips) hhides

/-- Whatever is not hidden has a place in the text. -/
theorem reveals_of_not_hides (ht : n.print = .ok t) (h : n.at? path = some m)
    (hhides : ¬n.Hides path) : n.Reveals path m := by
  induction hlen : path.length using Nat.strongRecOn generalizing n t path with
  | ind len ih =>
    obtain ⟨rfl, rfl⟩ | ⟨hop, c, rest, hne, hshown, rfl, hm, hc⟩ := next_of_not_hides ht h hhides
    · exact .refl ht
    · have hstep := reveals_of_mem_nodes ht hshown
      obtain ⟨k, u, hu, _⟩ := id hstep
      refine hstep.trans (ih rest.length ?_ hu hm hc rfl)
      have := length_pos_of_ne_nil hne
      rw [← hlen, length_append]
      omega

end Node

end Resugar
