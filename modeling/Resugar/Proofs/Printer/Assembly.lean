import Resugar.Proofs.Markup.Layout
import Resugar.Proofs.Printer.Segments

/-!
# The pieces of a node give its text

There is one lemma for every way in which the printer comes to a part of a text:
an operand, an item of a list, a node that may be missing, a function. A lemma
says what pieces give that part, whenever it is printed at all. With these,
every kind of node is a matter of putting parts together.
-/

namespace Resugar

open List

namespace Node

open Segments

/-! ## Parts of a text -/

section

variable {n body key value left right binding : Node} {t operator name : Text} {path : Path}
  {computed isAsync : Bool} {ts : List Text} {ns params : List Node} {o test : Option Node}
  {items : List (Path × Node)}

theorem text_of_print (h : n.print = .ok t) : n.text = t := by
  rw [text, h]
  rfl

theorem toOption_any {α : Type} {x : Except Fault α} {a : α} {p : α → Bool} (h : x = .ok a) :
    x.toOption.any p = p a := by
  rw [h]
  rfl

theorem exists_of_isFunctionExpr (h : n.isFunctionExpr = true) :
    ∃ id params body isAsync isGenerator, n = functionExpr id params body isAsync isGenerator := by
  cases n
  case functionExpr => exact ⟨_, _, _, _, _, rfl⟩
  all_goals cases h

/-- An operand is printed as its piece says, with parentheses if need be. -/
theorem prints_operand {outer : Nat} {side : Side} {operator : Option Text}
    (h : n.operand n.print outer side operator = .ok t) :
    Prints (operandSegments path n outer side operator) t := by
  obtain ⟨own, hown, h⟩ := bind_eq_ok.1 h
  obtain ⟨u, hu, h⟩ := bind_eq_ok.1 h
  cases h
  rw [operandSegments, toOption_any hown]
  exact (prints_child hu).parensIf _

theorem prints_logical {outer : Nat} {side : Side}
    (h : n.logicalOperand n.print operator outer side = .ok t) :
    Prints (logicalSegments path n operator outer side) t := by
  rw [logicalOperand] at h
  rw [logicalSegments]
  split_ifs at h ⊢
  · obtain ⟨u, hu, h⟩ := bind_eq_ok.1 h
    cases h
    exact (prints_child hu).parens
  · exact prints_operand h

theorem prints_primary (h : n.primary n.print = .ok t) : Prints (primarySegments path n) t := by
  obtain ⟨own, hown, h⟩ := bind_eq_ok.1 h
  obtain ⟨u, hu, h⟩ := bind_eq_ok.1 h
  cases h
  rw [primarySegments, bindsBelow, toOption_any hown]
  exact (prints_child hu).parensIf _

theorem prints_item (h : n.listItem n.print = .ok t) : Prints (itemSegments path n) t := by
  obtain ⟨own, hown, h⟩ := bind_eq_ok.1 h
  obtain ⟨u, hu, h⟩ := bind_eq_ok.1 h
  cases h
  rw [itemSegments, bindsBelow, toOption_any hown]
  exact (prints_child hu).parensIf _

theorem prints_key (h : n.printKey n.print computed = .ok t) :
    Prints (keySegments n computed) t := by
  rw [printKey] at h
  rw [keySegments]
  split_ifs at h ⊢
  · obtain ⟨u, hu, h⟩ := bind_eq_ok.1 h
    cases h
    exact .concat (.cons (prints_mark _) (.cons (prints_item hu) (.cons (prints_mark _) .nil)))
  · exact prints_child h

theorem steps_map_snd (base : Path) (name : String) (ns : List Node) :
    (steps base name ns).map (·.2) = ns := by
  rw [steps, map_map]
  exact zipIdx_map_fst 0 ns

/-- Pieces for the nodes of a list give what is printed for each. -/
theorem forall₂_prints {R : Node → Text → Prop} {f : Path → Node → Segments}
    (hf : ∀ path n t, R n t → Prints (f path n) t) (h : List.Forall₂ R (items.map (·.2)) ts) :
    List.Forall₂ Prints (items.map fun s => f s.1 s.2) ts :=
  forall₂_map_left_iff.2 ((forall₂_map_left_iff.1 h).imp fun _ _ h => hf _ _ _ h)

/-- The nodes of a list are printed one by one. -/
theorem forall₂_steps (base : Path) (name : String)
    (h : printAll ((printList ns).map (·.2)) = .ok ts) :
    List.Forall₂ (fun item t => item.2.print = .ok t) (steps base name ns) ts := by
  rw [map_snd_printList, ← steps_map_snd base name ns] at h
  exact forall₂_map_left_iff.1 (forall₂_map_left_iff.1 (forall₂_of_mapM h))

/-- Nodes of a list are printed one by one. -/
theorem forall₂_listSegments (base : Path) (name : String)
    (h : printAll ((printList ns).map (·.2)) = .ok ts) :
    List.Forall₂ Prints (listSegments base name ns) ts :=
  forall₂_prints (fun _ _ _ h => prints_child h)
    (forall₂_map_left_iff.2 (forall₂_steps base name h))

theorem printList_eq (ns : List Node) : printList ns = ns.map fun n => (n, n.print) := by
  induction ns with
  | nil => rfl
  | cons n ns ih => rw [printList, ih, map_cons]

theorem printHoles_eq (ns : List (Option Node)) :
    printHoles ns = ns.map (Option.map fun n => (n, n.print)) := by
  induction ns with
  | nil => rfl
  | cons o ns ih => cases o <;> rw [printHoles, ih] <;> rfl

theorem forall₂_itemsSegments (name : String)
    (h : ((printList ns).mapM fun (n, t) => n.listItem t) = .ok ts) :
    List.Forall₂ Prints (itemsSegments name ns) ts := by
  rw [printList_eq] at h
  have h := forall₂_map_left_iff.1 (forall₂_of_mapM h)
  refine forall₂_prints (fun _ _ _ h => prints_item h) ?_
  rwa [steps_map_snd]

/-- Pieces for a list with holes give each node's text, for a hole none. -/
theorem forall₂_holes {print : Node × Printed → Printed} {f : Path → Node → Segments}
    (name : String) {ns : List (Option Node)} {ts : List (Option Text)}
    (hf : ∀ path (n : Node) t, print (n, n.print) = .ok t → Prints (f path n) t)
    (h : ((printHoles ns).mapM fun e => e.mapM print) = .ok ts) :
    List.Forall₂ (Option.Rel Prints)
      ((holeSteps name ns).map (Option.map fun s => f s.1 s.2)) ts := by
  rw [printHoles_eq] at h
  have h := forall₂_map_left_iff.1 (forall₂_of_mapM h)
  have hsteps : (holeSteps name ns).map (Option.map (·.2)) = ns := by
    rw [holeSteps, map_map]
    refine Eq.trans (map_congr_left fun p _ => ?_) (zipIdx_map_fst 0 ns)
    obtain ⟨_ | _, _⟩ := p <;> rfl
  rw [← hsteps] at h
  refine forall₂_map_left_iff.2 ((forall₂_map_left_iff.1 h).imp fun o r h => ?_)
  cases o with
  | none =>
    cases h
    exact .none
  | some s =>
    obtain ⟨u, hu, rfl⟩ := map_eq_ok.1 h
    exact .some (hf _ _ _ hu)

/-- Pieces for a node that may be missing give what is printed for it. -/
theorem prints_elim {r : Option Text} {print : Node × Printed → Printed} {f : Node → Segments}
    (h : (printOption o).mapM print = .ok r)
    (hf : ∀ n t, print (n, n.print) = .ok t → Prints (f n) t) :
    Prints (o.elim [] f) (r.getD []) := by
  cases o with
  | none =>
    cases h
    exact .nil
  | some n =>
    obtain ⟨u, hu, rfl⟩ := map_eq_ok.1 h
    exact hf n u hu

theorem prints_option {r : Option Text} {before after : Text} {print : Text → Text} (name : String)
    (h : ((printOption o).mapM fun p => do return print (← p.2)) = .ok r)
    (hprint : ∀ u, print u = before ++ u ++ after) :
    Prints (optionSegments before name o after) (r.getD []) := by
  refine prints_elim h fun n t h => ?_
  obtain ⟨u, hu, h⟩ := bind_eq_ok.1 h
  cases h
  have hconcat : print u = Text.concat [before, u, after] := by simp [hprint, Text.concat]
  rw [hconcat]
  exact .concat (by simp [prints_child hu])

theorem mapM_map_printOption {f : Printed → Printed} {g : Node × Printed → Printed} :
    ((printOption o).map g).mapM f = (printOption o).mapM fun p => f (g p) := by
  cases o <;> rfl

theorem prints_template {quasis : List Text} {expressions : List Node} (i : Nat)
    (h : List.Forall₂ (fun n t => n.print = .ok t) (expressions.take quasis.length) ts) :
    Prints (templateSegments i quasis expressions) (Text.interleave quasis ts) := by
  induction quasis generalizing i expressions ts with
  | nil => exact .nil
  | cons q quasis ih =>
    cases expressions with
    | nil =>
      cases h
      exact .cons rfl (ih (i + 1) (by rw [take_nil]; exact .nil))
    | cons e es =>
      obtain _ | ⟨he, hes⟩ := h
      have hconcat (q e rest : Text) :
          Text.concat [q, "$\x7b", e, "\x7d", rest] =
            q ++ ("$\x7b" ++ (e ++ ("\x7d" ++ rest))) := by
        simp [Text.concat]
      rw [Text.interleave, hconcat]
      exact .cons rfl (.cons rfl (.cons he (.cons rfl (ih (i + 1) hes))))

/-- A function is printed with its name, its parameters and its body. -/
theorem prints_function {name : Option Node} {isGenerator : Bool}
    (h : printFunction ((printOption name).map (·.2)) ((printList params).map (·.2)) body.print
      isAsync isGenerator = .ok t) :
    Prints (functionSegments name params body isAsync isGenerator) t := by
  obtain ⟨r, hr, h⟩ := bind_eq_ok.1 h
  obtain ⟨ts, hts, h⟩ := bind_eq_ok.1 h
  obtain ⟨b, hb, h⟩ := bind_eq_ok.1 h
  cases h
  rw [mapM_map_printOption] at hr
  have hname : Prints (optionSegments " " "id" name []) (r.getD []) :=
    prints_option "id" hr fun u => by simp [Text.concat]
  refine .concat ?_
  simp only [forall₂_cons, prints_mark, hname, Prints.tuple (forall₂_listSegments _ _ hts),
    prints_child hb, List.Forall₂.nil, and_self]

theorem prints_method {isStatic isGenerator : Bool} {accessor : Text}
    (h : printMethod (key.printKey key.print computed) ((printList params).map (·.2)) body.print
      isStatic isAsync isGenerator accessor = .ok t) :
    Prints (methodSegments key computed params body isStatic isAsync isGenerator accessor) t := by
  obtain ⟨k, hk, h⟩ := bind_eq_ok.1 h
  obtain ⟨ts, hts, h⟩ := bind_eq_ok.1 h
  obtain ⟨b, hb, h⟩ := bind_eq_ok.1 h
  cases h
  refine .concat ?_
  simp only [forall₂_cons, prints_mark, prints_key hk,
    Prints.tuple (forall₂_listSegments _ _ hts), prints_child hb, List.Forall₂.nil, and_self]

theorem prints_class {name superClass : Option Node} (h : printClass ((printOption name).map (·.2))
      ((printOption superClass).map fun (n, t) => n.primary t) body.print = .ok t) :
    Prints (classSegments name superClass body) t := by
  obtain ⟨r, hr, h⟩ := bind_eq_ok.1 h
  obtain ⟨s, hs, h⟩ := bind_eq_ok.1 h
  obtain ⟨b, hb, h⟩ := bind_eq_ok.1 h
  cases h
  rw [mapM_map_printOption] at hr hs
  have hname : Prints (optionSegments [] "id" name " ") (r.getD []) :=
    prints_option "id" hr fun u => by simp [Text.concat]
  refine .concat (.cons (prints_mark _)
    (.cons hname (.cons (prints_elim hs fun n t h => ?_) (.cons (prints_child hb) .nil))))
  obtain ⟨u, hu, h⟩ := bind_eq_ok.1 h
  cases h
  exact .concat (by simp [prints_primary hu])

theorem prints_variables {base : Path} {kind : VariableKind} {declarators : List Node}
    (h : printVariables kind ((printList declarators).map (·.2)) = .ok t) :
    Prints (variablesSegments base kind declarators) t := by
  obtain ⟨ts, hts, h⟩ := bind_eq_ok.1 h
  cases h
  exact .concat (.cons (prints_mark _)
    (.cons (prints_mark _) (.cons (.join _ (forall₂_listSegments _ _ hts)) .nil)))

theorem prints_head {name : String}
    (hdecl : ¬∃ kind declarators, n = varDecl kind declarators) (h : n.print = .ok t) :
    Prints (headSegments name n) t := by
  cases n
  case varDecl => exact absurd ⟨_, _, rfl⟩ hdecl
  all_goals exact prints_child h

theorem prints_receiver (h : n.printReceiver n.print computed = .ok t) :
    Prints (receiverSegments n computed) t := by
  rw [printReceiver] at h
  rw [receiverSegments]
  split_ifs at h ⊢
  · obtain ⟨u, hu, h⟩ := bind_eq_ok.1 h
    cases h
    rw [text_of_print hu]
    exact (prints_child hu).parensIf _
  · obtain ⟨u, hu, h⟩ := bind_eq_ok.1 h
    cases h
    exact (prints_child hu).parens
  · exact prints_operand h

/-- The pieces of an entry give its text; a method's come in parts. -/
theorem prints_entry {kind : EntryKind} {shorthand isMethod : Bool}
    (h : (entry key value kind computed shorthand isMethod).print = .ok t) :
    Prints (entry key value kind computed shorthand isMethod).segments t := by
  cases hfunction : value.isFunctionExpr with
  | true =>
    -- a function may be written as a method, without its name
    obtain ⟨id, params, body, isAsync, isGenerator, rfl⟩ := exists_of_isFunctionExpr hfunction
    rw [print] at h
    rw [segments]
    split_ifs at h ⊢
    · exact prints_child h
    · exact prints_method h
    · obtain ⟨k, hk, h⟩ := bind_eq_ok.1 h
      obtain ⟨v, hv, h⟩ := bind_eq_ok.1 h
      cases h
      have hv : (functionExpr id params body isAsync isGenerator).print = .ok v := by rw [print, hv]
      exact .concat (by simp [prints_key hk, prints_child hv])
  | false =>
    have hother : ∀ id params body isAsync isGenerator,
        value = functionExpr id params body isAsync isGenerator → False := by
      rintro _ _ _ _ _ rfl
      cases hfunction
    rw [print] at h
    swap
    · exact hother
    rw [segments]
    swap
    · exact hother
    split_ifs at h ⊢
    · exact prints_child h
    · obtain ⟨k, hk, h⟩ := bind_eq_ok.1 h
      obtain ⟨v, hv, h⟩ := bind_eq_ok.1 h
      cases h
      exact .concat (by simp [prints_key hk, prints_item hv])

theorem prints_binary (h : (binary operator left right).print = .ok t) :
    Prints (binary operator left right).segments t := by
  rw [print] at h
  rw [segments]
  by_cases hpower : (operator == "**" && left.isUnary) = true
  · rw [if_pos hpower] at h ⊢
    obtain ⟨l, hl, h⟩ := bind_eq_ok.1 h
    obtain ⟨_, heq, h⟩ := bind_eq_ok.1 h
    cases heq
    obtain ⟨r, hr, h⟩ := bind_eq_ok.1 h
    cases h
    exact .concat (by simp [(prints_child hl).parens, prints_operand hr])
  · rw [if_neg hpower] at h ⊢
    obtain ⟨l, hl, h⟩ := bind_eq_ok.1 h
    obtain ⟨r, hr, h⟩ := bind_eq_ok.1 h
    cases h
    exact .concat (by simp [prints_operand hl, prints_operand hr])

theorem prints_logicalExpr (h : (logical operator left right).print = .ok t) :
    Prints (logical operator left right).segments t := by
  rw [print] at h
  obtain ⟨own, hown, h⟩ := bind_eq_ok.1 h
  obtain ⟨l, hl, h⟩ := bind_eq_ok.1 h
  obtain ⟨r, hr, h⟩ := bind_eq_ok.1 h
  cases h
  have hown : (operatorPrecedence? operator).getD 0 = own := by
    rw [precedence] at hown
    cases hp : operatorPrecedence? operator with
    | none =>
      rw [hp] at hown
      cases hown
    | some p =>
      rw [hp] at hown
      cases hown
      rfl
  rw [segments, hown]
  exact .concat (by simp [prints_logical hl, prints_logical hr])

/-- The pieces of a call give its text. -/
theorem prints_call {callee : Node} {arguments : List Node} {isOptional : Bool}
    (h : (call callee arguments isOptional).print = .ok t) :
    Prints (call callee arguments isOptional).segments t := by
  rw [print] at h
  rw [segments]
  by_cases hcallee : callee.isFunctionOrClass = true
  · rw [if_pos hcallee] at h ⊢
    obtain ⟨c, hc, h⟩ := bind_eq_ok.1 h
    obtain ⟨_, heq, h⟩ := bind_eq_ok.1 h
    cases heq
    obtain ⟨as, has, h⟩ := bind_eq_ok.1 h
    cases h
    exact .concat (by simp [(prints_child hc).parens, Prints.tuple (forall₂_itemsSegments _ has)])
  · rw [if_neg hcallee] at h ⊢
    obtain ⟨c, hc, h⟩ := bind_eq_ok.1 h
    obtain ⟨as, has, h⟩ := bind_eq_ok.1 h
    cases h
    exact .concat (by simp [prints_operand hc, Prints.tuple (forall₂_itemsSegments _ has)])

theorem prints_newExpr {callee : Node} {arguments : List Node}
    (h : (newExpr callee arguments).print = .ok t) :
    Prints (newExpr callee arguments).segments t := by
  rw [print] at h
  obtain ⟨own, hown, h⟩ := bind_eq_ok.1 h
  obtain ⟨c, hc, h⟩ := bind_eq_ok.1 h
  obtain ⟨as, has, h⟩ := bind_eq_ok.1 h
  cases h
  rw [segments, bindsBelow, toOption_any hown]
  exact .concat (by simp [(prints_child hc).parensIf, Prints.tuple (forall₂_itemsSegments _ has)])

theorem prints_member {receiver property : Node} {isOptional : Bool}
    (h : (member receiver property computed isOptional).print = .ok t) :
    Prints (member receiver property computed isOptional).segments t := by
  rw [print] at h
  obtain ⟨r, hr, h⟩ := bind_eq_ok.1 h
  obtain ⟨p, hp, h⟩ := bind_eq_ok.1 h
  cases h
  rw [segments]
  split_ifs
  all_goals exact .concat (by simp [prints_receiver hr, prints_child hp])

theorem prints_unary {argument : Node} (h : (unary operator argument).print = .ok t) :
    Prints (unary operator argument).segments t := by
  rw [print] at h
  obtain ⟨u, hu, h⟩ := bind_eq_ok.1 h
  rw [printUnary] at h
  cases hlast : operator.getLast? with
  | none =>
    rw [hlast] at h
    cases h
  | some last =>
    rw [hlast] at h
    cases h
    rw [segments, hu, unaryBlank, hlast]
    exact .concat (by simp [prints_operand hu, Except.toOption])

theorem prints_params (h : printAll ((printList params).map (·.2)) = .ok ts) :
    Prints
      (if params.length = 1 && params.all isIdentifier then
        Segments.concat (listSegments [] "params" params)
        else Segments.tuple (listSegments [] "params" params))
      (if params.length = 1 && params.all isIdentifier then ts.flatten else Text.tuple ts) := by
  have h := forall₂_listSegments [] "params" h
  split_ifs
  · exact .concat h
  · exact .tuple h

/-- The pieces of an arrow function give its text. An object or a sequence as
    its body stands in parentheses. -/
theorem prints_arrow (h : (arrow params body isAsync).print = .ok t) :
    Prints (arrow params body isAsync).segments t := by
  rw [print] at h
  rw [segments]
  obtain ⟨ts, hts, h⟩ := bind_eq_ok.1 h
  have harrow {b : Text} {ss : Segments} (hb : Prints ss b) :
      Prints (Segments.concat [mark (if isAsync then "async " else []),
          if params.length = 1 && params.all isIdentifier
            then Segments.concat (listSegments [] "params" params)
            else Segments.tuple (listSegments [] "params" params), mark " => ", ss])
        (Text.concat [if isAsync then "async " else [],
          if params.length = 1 && params.all isIdentifier then ts.flatten
            else Text.tuple ts, " => ", b]) :=
    .concat (.cons (prints_mark _)
      (.cons (prints_params hts) (.cons (prints_mark _) (.cons hb .nil))))
  by_cases hblock : body.isBlock = true
  · rw [if_pos hblock] at h ⊢
    obtain ⟨b, hb, h⟩ := bind_eq_ok.1 h
    cases h
    exact harrow (prints_child hb)
  · rw [if_neg hblock] at h ⊢
    by_cases hgroup : (body.isObject || body.isSequence) = true
    · rw [if_pos hgroup] at h ⊢
      obtain ⟨b, hb, h⟩ := bind_eq_ok.1 h
      obtain ⟨_, heq, h⟩ := bind_eq_ok.1 h
      cases heq
      cases h
      exact harrow (prints_child hb).parens
    · rw [if_neg hgroup] at h ⊢
      obtain ⟨b, hb, h⟩ := bind_eq_ok.1 h
      cases h
      exact harrow (prints_operand hb)

theorem prints_attributes (h : List.Forall₂ (fun item t => item.2.print = .ok t) items ts) :
    Prints (items.flatMap fun s => [.mark " ", .child s.1 s.2])
      (ts.flatMap fun t => ' ' :: t) := by
  induction h with
  | nil => exact .nil
  | cons ha _ ih => exact .cons (t := [' ']) rfl (.cons ha ih)

theorem prints_element {attributes children : List Node} {selfClosing : Bool}
    (h : (element name attributes children selfClosing).print = .ok t) :
    Prints (element name attributes children selfClosing).segments t := by
  rw [print] at h
  rw [segments]
  obtain ⟨as, has, h⟩ := bind_eq_ok.1 h
  have has := prints_attributes (forall₂_steps [] "attributes" has)
  cases selfClosing with
  | true =>
    cases h
    exact .concat (by simp [has])
  | false =>
    obtain ⟨cs, hcs, h⟩ := bind_eq_ok.1 h
    cases h
    have hcs : Prints (Segments.concat (listSegments [] "children" children)) cs.flatten :=
      .concat (forall₂_listSegments _ _ hcs)
    exact .concat (by simp [has, hcs])

/-- The pieces of an attribute give its text: a string, a container, or an
    expression in braces. -/
theorem prints_namedAttribute (h : (namedAttribute name (some value)).print = .ok t) :
    Prints (namedAttribute name (some value)).segments t := by
  by_cases hstring : ∃ text spelling, value = literal (.string text) spelling
  · obtain ⟨text, spelling, rfl⟩ := hstring
    rw [print] at h
    cases h
    have hprints : Prints (namedAttribute name (some (literal (.string text) spelling))).segments
        (Text.concat [name, "=", text.attributeString]) := .concat (by simp [prints_own])
    simpa [Text.concat, Text.attributeString, Text.ofString] using hprints
  by_cases hcontainer : ∃ e, value = container e
  · obtain ⟨e, rfl⟩ := hcontainer
    rw [print] at h
    obtain ⟨u, hu, h⟩ := bind_eq_ok.1 h
    cases h
    have hvalue : (container e).print = .ok (Text.concat ["\x7b", u, "\x7d"]) := by
      rw [print, hu]
      rfl
    have hprints : Prints (namedAttribute name (some (container e))).segments
        (Text.concat [name, "=", Text.concat ["\x7b", u, "\x7d"]]) :=
      .concat (by simp [prints_child hvalue])
    simpa [Text.concat, Text.ofString] using hprints
  · have hstring : ∀ text spelling, value = literal (.string text) spelling → False :=
      fun text spelling h => hstring ⟨text, spelling, h⟩
    have hcontainer : ∀ e, value = container e → False := fun e h => hcontainer ⟨e, h⟩
    rw [print] at h
    rotate_left
    · exact hstring
    · exact hcontainer
    rw [segments]
    rotate_left
    · exact hstring
    · exact hcontainer
    obtain ⟨u, hu, h⟩ := bind_eq_ok.1 h
    cases h
    exact .concat (by simp [prints_item hu])

/-- The pieces of an `if` give its text; what would take `else` is braced. -/
theorem prints_ifStmt {test consequent : Node} {alternate : Option Node}
    (h : (ifStmt test consequent alternate).print = .ok t) :
    Prints (ifStmt test consequent alternate).segments t := by
  rw [print] at h
  obtain ⟨u, hu, h⟩ := bind_eq_ok.1 h
  obtain ⟨c, hc, h⟩ := bind_eq_ok.1 h
  obtain ⟨a, ha, h⟩ := bind_eq_ok.1 h
  cases h
  have ha : Prints (optionSegments " else " "alternate" alternate []) (a.getD []) :=
    prints_option "alternate" ha fun u => by simp [Text.concat]
  have hc' : Prints (if alternate.isSome && consequent.takesElse then braces
      [([.field "consequent"], consequent)] else child [.field "consequent"] consequent)
      (if alternate.isSome && consequent.takesElse then Text.braces [c] else c) := by
    split_ifs
    · exact .braces (.cons hc .nil)
    · exact prints_child hc
  exact .concat (by simp only [forall₂_cons, prints_mark, prints_child hu, hc', ha,
    List.Forall₂.nil, and_self])

/-- A loop from what stands at its head. -/
theorem prints_loop {init : Text} {ss : Segments} {step : Option Node} (hinit : Prints ss init)
    (h : (do
      let t ← (printOption test).mapM fun (p : Node × Printed) => do return Text.concat [" ", ← p.2]
      let s ← (printOption step).mapM fun (p : Node × Printed) => do return Text.concat [" ", ← p.2]
      return Text.concat ["for (", init, ";", t.getD [], ";", s.getD [], ") ", ← body.print]) =
        .ok t) :
    Prints (Segments.concat [mark "for (", ss, mark ";", optionSegments " " "test" test [],
      mark ";", optionSegments " " "update" step [], mark ") ", child [.field "body"] body]) t := by
  obtain ⟨r, hr, h⟩ := bind_eq_ok.1 h
  obtain ⟨s, hs, h⟩ := bind_eq_ok.1 h
  obtain ⟨b, hb, h⟩ := bind_eq_ok.1 h
  cases h
  have hr : Prints (optionSegments " " "test" test []) (r.getD []) :=
    prints_option "test" hr fun u => by simp [Text.concat]
  have hs : Prints (optionSegments " " "update" step []) (s.getD []) :=
    prints_option "update" hs fun u => by simp [Text.concat]
  exact .concat (by simp [hinit, hr, hs, prints_child hb])

/-- The pieces of a loop give its text. A declaration at its head has no
    semicolon of its own. -/
theorem prints_forStmt {init step : Option Node} (h : (forStmt init test step body).print = .ok t) :
    Prints (forStmt init test step body).segments t := by
  rcases init with _ | init
  · rw [print] at h
    exact prints_loop .nil h
  by_cases hdecl : ∃ kind declarators, init = varDecl kind declarators
  · obtain ⟨kind, declarators, rfl⟩ := hdecl
    rw [print] at h
    obtain ⟨i, hi, h⟩ := bind_eq_ok.1 h
    exact prints_loop (prints_variables hi) h
  · rw [print] at h
    swap
    · exact fun kind declarators h => hdecl ⟨kind, declarators, h⟩
    obtain ⟨i, hi, h⟩ := bind_eq_ok.1 h
    exact prints_loop (prints_head hdecl hi) h

theorem prints_forInStmt {isOf isAwait : Bool}
    (h : (forInStmt left right body isOf isAwait).print = .ok t) :
    Prints (forInStmt left right body isOf isAwait).segments t := by
  by_cases hdecl : ∃ kind declarators, left = varDecl kind declarators
  · obtain ⟨kind, declarators, rfl⟩ := hdecl
    rw [print] at h
    obtain ⟨l, hl, h⟩ := bind_eq_ok.1 h
    obtain ⟨r, hr, h⟩ := bind_eq_ok.1 h
    obtain ⟨b, hb, h⟩ := bind_eq_ok.1 h
    cases h
    exact .concat (by simp [headSegments, prints_variables hl, prints_child hr, prints_child hb])
  · rw [print] at h
    swap
    · exact fun kind declarators h => hdecl ⟨kind, declarators, h⟩
    obtain ⟨l, hl, h⟩ := bind_eq_ok.1 h
    obtain ⟨r, hr, h⟩ := bind_eq_ok.1 h
    obtain ⟨b, hb, h⟩ := bind_eq_ok.1 h
    cases h
    exact .concat (by simp [prints_head hdecl hl, prints_child hr, prints_child hb])

theorem prints_cases (h : List.Forall₂ (fun item t => item.2.print = .ok t) items ts) :
    Prints (items.flatMap fun s => [.mark "\n", .nested s.1 s.2])
      (ts.flatMap fun t => '\n' :: t.indent) := by
  induction h with
  | nil => exact .nil
  | cons hc _ ih =>
    exact .cons (t := ['\n']) rfl (.cons (bind_eq_ok.2 ⟨_, hc, rfl⟩) ih)

/-- The pieces of a case give its text, its statements one level deeper. -/
theorem prints_switchCase {consequent : List Node}
    (h : (switchCase test consequent).print = .ok t) :
    Prints (switchCase test consequent).segments t := by
  rw [print] at h
  obtain ⟨r, hr, h⟩ := bind_eq_ok.1 h
  obtain ⟨ts, hts, h⟩ := bind_eq_ok.1 h
  cases h
  have hlines := prints_cases (forall₂_steps [] "consequent" hts)
  have hconcat (u v : Text) : u ++ v = Text.concat [u, v] := by simp [Text.concat]
  rw [hconcat]
  cases test with
  | none =>
    cases hr
    exact .concat (by simp [hlines])
  | some test =>
    obtain ⟨u, hu, rfl⟩ := map_eq_ok.1 hr
    obtain ⟨v, hv, hu⟩ := bind_eq_ok.1 hu
    cases hu
    have hhead : Prints (Segments.concat [mark "case ", child [.field "test"] test, mark ":"])
        (Text.concat ["case ", v, ":"]) := .concat (by simp [prints_child hv])
    exact .concat (by simp [hhead, hlines])

/-- The nodes of a list that are of one kind are printed one by one. -/
theorem forall₂_filter (p : Node → Bool) (name : String)
    (h : printAll (((printList ns).filter (p ·.1)).map (·.2)) = .ok ts) :
    List.Forall₂ Prints (((steps [] name ns).filter (p ·.2)).map fun s => child s.1 s.2) ts := by
  have hfilter : ((printList ns).filter (p ·.1)).map (·.2) = (ns.filter p).map print := by
    rw [printList_eq, filter_map, map_map]
    rfl
  have hsteps : ((steps [] name ns).filter (p ·.2)).map (·.2) = ns.filter p := by
    conv_rhs => rw [← steps_map_snd [] name ns, filter_map]
    rfl
  rw [hfilter] at h
  refine forall₂_prints (fun _ _ _ h => prints_child h) ?_
  rw [hsteps]
  exact forall₂_map_left_iff.1 (forall₂_of_mapM h)

/-- The named imports, in braces if there are any. -/
theorem forall₂_named {pieces : List Segments} (h : List.Forall₂ Prints pieces ts) :
    List.Forall₂ Prints (if pieces.isEmpty then [] else [Segments.bracedList pieces])
      (if ts.isEmpty then [] else [Text.bracedList ts]) := by
  cases h with
  | nil => exact .nil
  | cons hp hrest => exact .cons (.bracedList (.cons hp hrest)) .nil

/-- What an import takes from its source, if anything. -/
theorem prints_from {pieces : List Segments} (h : List.Forall₂ Prints pieces ts) :
    Prints (if pieces.isEmpty then [] else Segments.concat
      [Segments.join ", " pieces, mark " from "])
      (if ts.isEmpty then [] else Text.join ", " ts ++ " from ") := by
  cases h with
  | nil => exact .nil
  | cons hp hrest => exact .pair (.join _ (.cons hp hrest)) (prints_mark _)

/-- The pieces of an import give its text, the names in braces last. -/
theorem prints_importDecl {specifiers : List Node} {source : Node}
    (h : (importDecl specifiers source).print = .ok t) :
    Prints (importDecl specifiers source).segments t := by
  rw [print] at h
  rw [segments]
  obtain ⟨ls, hls, h⟩ := bind_eq_ok.1 h
  obtain ⟨ns, hns, h⟩ := bind_eq_ok.1 h
  obtain ⟨s, hs, h⟩ := bind_eq_ok.1 h
  cases h
  have hls := forall₂_filter (!·.isImportName) "specifiers" hls
  have hns := forall₂_filter (·.isImportName) "specifiers" hns
  exact .concat (.cons (prints_mark _)
    (.cons (prints_from (rel_append hls (forall₂_named hns)))
    (.cons (prints_child hs) (.cons (prints_mark _) .nil))))

/-- An imported name, with what it is bound to unless that is the same. -/
theorem prints_imported {imported : Node} {i : Text} {same : Bool} (hi : imported.print = .ok i)
    (h : (if same then pure i else do return Text.concat [i, " as ", ← binding.print] : Printed) =
      .ok t) :
    Prints
      (if same then child [.field "imported"] imported
        else Segments.concat
        [child [.field "imported"] imported, mark " as ", child [.field "local"] binding]) t := by
  split_ifs at h ⊢
  · cases h
    exact prints_child hi
  · obtain ⟨b, hb, h⟩ := bind_eq_ok.1 h
    cases h
    exact .concat (by simp [prints_child hi, prints_child hb])

theorem importsSame_identifier {b : Text} (h : binding.definedName = .ok b) :
    (identifier name).importsSame binding = (b == name) := by
  rw [definedName] at h
  split at h
  case h_1 b' hbinding =>
    cases h
    rw [importsSame, hbinding]
    rfl
  case h_2 => cases h

theorem prints_importName {imported : Node} (h : (importName imported binding).print = .ok t) :
    Prints (importName imported binding).segments t := by
  rw [print] at h
  rw [segments]
  obtain ⟨i, hi, h⟩ := bind_eq_ok.1 h
  -- only a name can be the same as what it is bound to
  cases imported
  case identifier name =>
    obtain ⟨b, hb, h⟩ := bind_eq_ok.1 h
    rw [importsSame_identifier hb]
    exact prints_imported hi h
  all_goals exact prints_imported hi h

/-- The pieces of an export give its text: a declaration, or names in braces. -/
theorem prints_exportNamed {declaration source : Option Node} {specifiers : List Node}
    (h : (exportNamed declaration specifiers source).print = .ok t) :
    Prints (exportNamed declaration specifiers source).segments t := by
  rw [print] at h
  cases declaration with
  | some n =>
    obtain ⟨u, hu, h⟩ := bind_eq_ok.1 h
    cases h
    exact .concat (by simp [prints_child hu])
  | none =>
    obtain ⟨ts, hts, h⟩ := bind_eq_ok.1 h
    obtain ⟨r, hr, h⟩ := bind_eq_ok.1 h
    cases h
    have hr : Prints (optionSegments " from " "source" source []) (r.getD []) :=
      prints_option "source" hr fun u => by simp [Text.concat]
    exact .concat (by simp [Prints.bracedList (forall₂_listSegments [] "specifiers" hts), hr])

theorem prints_methodOf {kind : MethodKind} {isStatic : Bool}
    (h : (method key value kind isStatic computed).print = .ok t) :
    Prints (method key value kind isStatic computed).segments t := by
  cases value
  case functionExpr | functionDecl =>
    rw [print] at h
    exact prints_method h
  all_goals cases h

/-- A text that is printed for a node is what its pieces give. -/
theorem prints_segments (h : n.print = .ok t) : Prints n.segments t := by
  -- in every case the printer is taken apart, and the parts that it has printed
  -- are put together again
  cases n with
  | raw | identifier | literal | thisExpr | superExpr | markupText | emptyStmt | debuggerStmt |
    breakStmt | continueStmt =>
    exact text_of_print h ▸ prints_mark _
  | template quasis expressions =>
    rw [print] at h
    obtain ⟨ts, hts, h⟩ := bind_eq_ok.1 h
    cases h
    rw [printList_eq, ← map_take, map_map] at hts
    have hts := prints_template 0 (forall₂_map_left_iff.1 (forall₂_of_mapM hts))
    exact .concat (by simp [hts])
  | taggedTemplate tag quasi =>
    rw [print] at h
    obtain ⟨u, hu, h⟩ := bind_eq_ok.1 h
    obtain ⟨v, hv, h⟩ := bind_eq_ok.1 h
    cases h
    exact .concat (by simp [prints_primary hu, prints_child hv])
  | array elements =>
    rw [print] at h
    obtain ⟨ts, hts, h⟩ := bind_eq_ok.1 h
    cases h
    exact .brackets (forall₂_holes _ (fun _ _ _ h => prints_item h) hts)
  | object entries | objectPattern entries =>
    rw [print] at h
    obtain ⟨ts, hts, h⟩ := bind_eq_ok.1 h
    cases h
    exact .bracedList (forall₂_listSegments _ _ hts)
  | entry key value kind computed shorthand isMethod => exact prints_entry h
  | unary operator argument => exact prints_unary h
  | update operator argument leading =>
    rw [print] at h
    obtain ⟨u, hu, h⟩ := bind_eq_ok.1 h
    cases h
    have hu : Prints (operandSegments [.field "argument"] argument 18 .right none) u :=
      prints_operand hu
    cases leading with
    | true => exact .pair (prints_mark operator) hu
    | false => exact .pair hu (prints_mark operator)
  | binary operator left right => exact prints_binary h
  | logical operator left right => exact prints_logicalExpr h
  | assignment operator left right =>
    rw [print] at h
    obtain ⟨l, hl, h⟩ := bind_eq_ok.1 h
    obtain ⟨r, hr, h⟩ := bind_eq_ok.1 h
    cases h
    exact .concat (by simp [(prints_child hl).parensIf, prints_operand hr])
  | conditional test consequent alternate =>
    rw [print] at h
    obtain ⟨u, hu, h⟩ := bind_eq_ok.1 h
    obtain ⟨v, hv, h⟩ := bind_eq_ok.1 h
    obtain ⟨w, hw, h⟩ := bind_eq_ok.1 h
    cases h
    exact .concat (by simp [prints_operand hu, prints_operand hv, prints_operand hw])
  | call callee arguments isOptional => exact prints_call h
  | newExpr callee arguments => exact prints_newExpr h
  | member receiver property computed isOptional => exact prints_member h
  | sequence expressions =>
    rw [print] at h
    obtain ⟨ts, hts, h⟩ := bind_eq_ok.1 h
    cases h
    exact .join _ (forall₂_itemsSegments _ hts)
  | parenthesized expression =>
    rw [print] at h
    obtain ⟨u, hu, h⟩ := bind_eq_ok.1 h
    cases h
    exact (prints_child hu).parens
  | awaitExpr argument =>
    rw [print] at h
    obtain ⟨u, hu, h⟩ := bind_eq_ok.1 h
    cases h
    exact .concat (by simp [prints_operand hu])
  | yieldExpr argument delegate =>
    rw [print] at h
    obtain ⟨r, hr, h⟩ := bind_eq_ok.1 h
    cases h
    refine .concat (.cons (prints_mark _) (.cons (prints_elim hr fun n t h => ?_) .nil))
    obtain ⟨u, hu, h⟩ := bind_eq_ok.1 h
    cases h
    exact .concat (by simp [prints_operand hu])
  | arrow params body isAsync => exact prints_arrow h
  | arrayPattern elements =>
    rw [print] at h
    obtain ⟨ts, hts, h⟩ := bind_eq_ok.1 h
    cases h
    exact .brackets (forall₂_holes _ (fun _ _ _ h => prints_child h) hts)
  | defaultPattern left right =>
    rw [print] at h
    obtain ⟨u, hu, h⟩ := bind_eq_ok.1 h
    obtain ⟨v, hv, h⟩ := bind_eq_ok.1 h
    cases h
    exact .concat (by simp [prints_child hu, prints_item hv])
  | element name attributes children selfClosing => exact prints_element h
  | namedAttribute name value =>
    cases value with
    | none => exact text_of_print h ▸ prints_mark _
    | some value => exact prints_namedAttribute h
  | spread argument | spreadAttribute argument | container argument =>
    rw [print] at h
    obtain ⟨u, hu, h⟩ := bind_eq_ok.1 h
    cases h
    exact .concat (by simp [prints_item hu])
  | program body =>
    rw [print] at h
    obtain ⟨ts, hts, h⟩ := bind_eq_ok.1 h
    cases h
    exact .join _ (forall₂_listSegments _ _ hts)
  | exprStmt expression =>
    rw [print] at h
    obtain ⟨u, hu, h⟩ := bind_eq_ok.1 h
    cases h
    rw [segments, text_of_print hu]
    exact .pair ((prints_child hu).parensIf _) (prints_mark _)
  | block body | classBody body =>
    rw [print] at h
    obtain ⟨ts, hts, h⟩ := bind_eq_ok.1 h
    cases h
    exact .braces (forall₂_steps _ _ hts)
  | returnStmt argument =>
    rw [print] at h
    obtain ⟨r, hr, h⟩ := bind_eq_ok.1 h
    cases h
    have hr : Prints (optionSegments " " "argument" argument []) (r.getD []) :=
      prints_option "argument" hr fun u => by simp [Text.concat]
    exact .concat (by simp [hr])
  | ifStmt test consequent alternate => exact prints_ifStmt h
  | forStmt init test step body => exact prints_forStmt h
  | forInStmt left right body isOf isAwait => exact prints_forInStmt h
  | whileStmt test body | doWhileStmt body test =>
    rw [print] at h
    obtain ⟨u, hu, h⟩ := bind_eq_ok.1 h
    obtain ⟨v, hv, h⟩ := bind_eq_ok.1 h
    cases h
    exact .concat (by simp [prints_child hu, prints_child hv])
  | catchClause param body =>
    rw [print] at h
    obtain ⟨r, hr, h⟩ := bind_eq_ok.1 h
    obtain ⟨b, hb, h⟩ := bind_eq_ok.1 h
    cases h
    have hr : Prints (optionSegments "(" "param" param ") ") (r.getD []) :=
      prints_option "param" hr fun u => by simp [Text.concat]
    exact .concat (by simp [hr, prints_child hb])
  | tryStmt body handler finalizer =>
    rw [print] at h
    obtain ⟨b, hb, h⟩ := bind_eq_ok.1 h
    obtain ⟨r, hr, h⟩ := bind_eq_ok.1 h
    obtain ⟨f, hf, h⟩ := bind_eq_ok.1 h
    cases h
    have hr : Prints (optionSegments " " "handler" handler []) (r.getD []) :=
      prints_option "handler" hr fun u => by simp [Text.concat]
    have hf : Prints (optionSegments " finally " "finalizer" finalizer []) (f.getD []) :=
      prints_option "finalizer" hf fun u => by simp [Text.concat]
    exact .concat (by simp [prints_child hb, hr, hf])
  | switchCase test consequent => exact prints_switchCase h
  | switchStmt discriminant cases =>
    rw [print] at h
    obtain ⟨u, hu, h⟩ := bind_eq_ok.1 h
    obtain ⟨ts, hts, h⟩ := bind_eq_ok.1 h
    cases h
    exact .concat (by simp [prints_child hu, Prints.braces (forall₂_steps [] "cases" hts)])
  | declarator target init =>
    rw [print] at h
    obtain ⟨u, hu, h⟩ := bind_eq_ok.1 h
    obtain ⟨r, hr, h⟩ := bind_eq_ok.1 h
    cases h
    refine .pair (prints_child hu) (prints_elim hr fun n t h => ?_)
    obtain ⟨v, hv, h⟩ := bind_eq_ok.1 h
    cases h
    exact .concat (by simp [prints_item hv])
  | varDecl kind declarators =>
    rw [print] at h
    obtain ⟨u, hu, h⟩ := bind_eq_ok.1 h
    cases h
    exact .pair (prints_variables hu) (prints_mark _)
  | functionExpr name params body isAsync isGenerator
  | functionDecl name params body isAsync isGenerator =>
    rw [print] at h
    exact prints_function h
  | method key value kind isStatic computed => exact prints_methodOf h
  | classField key value isStatic computed =>
    rw [print] at h
    obtain ⟨k, hk, h⟩ := bind_eq_ok.1 h
    obtain ⟨r, hr, h⟩ := bind_eq_ok.1 h
    cases h
    refine .concat (.cons (prints_mark _)
      (.cons (prints_key hk) (.cons (prints_elim hr fun n t h => ?_) (.cons (prints_mark _) .nil))))
    obtain ⟨v, hv, h⟩ := bind_eq_ok.1 h
    cases h
    exact .concat (by simp [prints_item hv])
  | classExpr name superClass body | classDecl name superClass body =>
    rw [print] at h
    exact prints_class h
  | importDefault binding =>
    rw [print] at h
    exact prints_child h
  | restPattern n | throwStmt n | labeledStmt _ n | importNamespace n =>
    rw [print] at h
    obtain ⟨u, hu, h⟩ := bind_eq_ok.1 h
    cases h
    exact .concat (by simp [prints_child hu])
  | importName imported binding => exact prints_importName h
  | importDecl specifiers source => exact prints_importDecl h
  | exportName binding exported =>
    rw [print] at h
    obtain ⟨b, hb, h⟩ := bind_eq_ok.1 h
    obtain ⟨e, he, h⟩ := bind_eq_ok.1 h
    cases h
    rw [segments, text_of_print hb, text_of_print he]
    split_ifs
    · exact prints_child hb
    · exact .concat (by simp [prints_child hb, prints_child he])
  | exportNamed declaration specifiers source => exact prints_exportNamed h
  | exportDefault declaration =>
    rw [print] at h
    rw [segments]
    split_ifs at h ⊢
    · obtain ⟨u, hu, h⟩ := bind_eq_ok.1 h
      cases h
      exact .concat (by simp [prints_child hu])
    · obtain ⟨u, hu, h⟩ := bind_eq_ok.1 h
      cases h
      exact .concat (by simp [prints_item hu])
  | exportAll source exported =>
    rw [print] at h
    obtain ⟨r, hr, h⟩ := bind_eq_ok.1 h
    obtain ⟨s, hs, h⟩ := bind_eq_ok.1 h
    cases h
    have hr : Prints (optionSegments "as " "exported" exported " ") (r.getD []) :=
      prints_option "exported" hr fun u => by simp [Text.concat]
    exact .concat (by simp [hr, prints_child hs])

end

end Node

end Resugar
