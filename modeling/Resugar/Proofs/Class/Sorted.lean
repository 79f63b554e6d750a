import Resugar.Proofs.Class.Inversion
import Resugar.Proofs.Tree.Compositional

/-!
# The parts of a class factory

A class factory is taken apart (`Factory.ofDeclarator?`), and its statements are
sorted: some define members, one is the constructor, and the others are kept
before and after the class (`Factory.sorted?`). All these are parts of the
declarator that held the factory, and they have every hereditary property of the
declarator (`Hereditary`) that `undefined` has, which stands for arguments that
are not there.
-/

namespace Resugar

open List

variable {Q : Role → Node → Prop}

/-! ## Tables of nodes -/

namespace Table

variable {α : Type} {name : Text}

theorem mem_of_get? {t : Table α} {a : α} (h : t.get? name = some a) : (name, a) ∈ t := by
  rw [get?, lookup_eq_some_iff] at h
  obtain ⟨before, after, rfl, -⟩ := h
  simp

/-- What stands in a table after an entry did so before, or is the entry. -/
theorem mem_insert {t : Table α} {a : α} {e : Text × α} (h : e ∈ t.insert name a) :
    e ∈ t ∨ e = (name, a) := by
  induction t with
  | nil => exact .inr (mem_singleton.1 h)
  | cons p t ih =>
    rw [insert] at h
    split at h
    · rename_i hname
      rcases mem_cons.1 h with rfl | h
      · exact .inr (hname ▸ rfl)
      · exact .inl (mem_cons_of_mem _ h)
    · rcases mem_cons.1 h with rfl | h
      · exact .inl mem_cons_self
      · exact (ih h).imp_left (mem_cons_of_mem _)

/-- The nodes of a table have a property. -/
def All (Q : Role → Node → Prop) (t : Table Node) : Prop :=
  ∀ e ∈ t, Q .any e.2

/-- What a table gives has what all its nodes have. -/
theorem All.get? {t : Table Node} (h : t.All Q) {n : Node} (hn : t.get? name = some n) : Q .any n :=
  h _ (mem_of_get? hn)

theorem All.insert {t : Table Node} (h : t.All Q) {n : Node} (hn : Q .any n) :
    (t.insert name n).All Q := by
  intro e he
  rcases mem_insert he with he | rfl
  · exact h e he
  · exact hn

end Table

/-! ## Parts -/

/-- The arguments of a call of the superclass have a property, and so has the
    variable for the result. -/
def SuperCall.All (Q : Role → Node → Prop) (c : SuperCall) : Prop :=
  (∀ a ∈ c.arguments, Q .any a) ∧ ∀ x ∈ c.holder, Q .any (.identifier x)

/-- The parameters and the body of a draft have a property. -/
def ConstructorDraft.All (Q : Role → Node → Prop) (c : ConstructorDraft) : Prop :=
  (∀ p ∈ c.params, Q (.pattern .bound) p) ∧ ∀ s ∈ c.body, Q .any s

/-- All parts of the body of a factory have a property. -/
structure FactoryBody.All (Q : Role → Node → Prop) (b : FactoryBody) : Prop where
  before : ∀ s ∈ b.before, Q .any s
  declaration : Q .any b.declaration
  protoRest : ∀ d ∈ b.protoRest, Q .any d
  after : ∀ s ∈ b.after, Q .any s

/-- All parts of a factory have a property. -/
structure Factory.All (Q : Role → Node → Prop) (f : Factory) : Prop where
  binding : Q .any (.identifier f.binding)
  arguments : ∀ a ∈ f.arguments, Q .any a
  newArguments : ∀ a ∈ f.newArguments, Q .any a
  name : Q .any (.identifier f.body.name)
  body : f.body.All Q

/-- All parts of a class have a property, as they stand in a factory. -/
structure SortedClass.All (Q : Role → Node → Prop) (c : SortedClass) : Prop where
  leading : ∀ s ∈ c.leading, Q .any s
  draft : c.draft.All Q
  members : ∀ m ∈ c.members, Q .any m
  trailing : ∀ s ∈ c.trailing, Q .any s

theorem Factory.All.className {f : Factory} (hf : f.All Q) : Q .any (.identifier f.className) := by
  unfold Factory.className
  split
  · exact hf.name
  · exact hf.binding

namespace Node

variable {n s : Node} {body : List Node}

/-! ## Statements -/

/-- What every step keeps holds at the end of a fold that does not fail. -/
theorem of_foldlM? {α β : Type} {f : β → α → Option β} {P : β → Prop} {l : List α}
    (hstep : ∀ b a b', a ∈ l → P b → f b a = some b' → P b') {b b' : β} (hb : P b)
    (h : l.foldlM f b = some b') : P b' := by
  induction l generalizing b with
  | nil =>
    cases h
    exact hb
  | cons a l ih =>
    rw [foldlM_cons] at h
    obtain ⟨b₁, hb₁, h⟩ := Option.bind_eq_some_iff.1 h
    refine ih (fun b a b' ha => hstep b a b' (mem_cons_of_mem _ ha)) ?_ h
    exact hstep b a b₁ mem_cons_self hb hb₁

section

variable (hQ : Compositional Q)
include hQ

theorem statements_inherit (h : n.statements = .ok body) (hn : Q .any n) :
    ∀ s ∈ body, Q .any s := by
  obtain rfl | rfl | rfl := statements_cases h
  · exact hQ.program.1 hn
  · exact hQ.block.1 hn
  · exact hQ.classBody.1 hn

/-- A body with other statements has what they have. -/
theorem withStatements_inherits {old : List Node} (h : n.statements = .ok old)
    (hbody : ∀ s ∈ body, Q .any s) : Q .any (n.withStatements body) := by
  obtain rfl | rfl | rfl := statements_cases h
  · exact hQ.program.2 hbody
  · exact hQ.block.2 hbody
  · exact hQ.classBody.2 hbody

/-- Leaving declarators out keeps the property of the statements. -/
theorem filterDeclarators_inherits {keep : Node → Bool} (h : ∀ s ∈ body, Q .any s) :
    ∀ s ∈ filterDeclarators keep body, Q .any s := by
  intro s hs
  obtain ⟨t, ht, hts⟩ := mem_filterMap.1 hs
  have ht := h t ht
  split at hts
  · rename_i kind declarators
    split at hts
    · cases hts
    · cases hts
      refine hQ.varDecl.2 fun d hd => hQ.varDecl.1 ht d ?_
      rename_i hkept _
      exact (mem_filter.1 hd).1
  · cases hts
    exact ht

end

/-! ## Constructors -/

/-- `_assertThisInitialized(a)` and `a` are made of the same parts. -/
theorem unwrapAssertions_inherits (hQ : Compositional Q) (hexchanges : Exchanges Q) (h : Q .any s) :
    Q .any (unwrapAssertions s) := by
  refine hexchanges _ _ false (fun _ m m' hm' => ?_) h
  unfold unwrapAssertion? at hm'
  split at hm'
  · split at hm'
    · cases hm'
      exact ⟨rfl, fun hm => (hQ.call.1 hm).2 _ (mem_singleton_self _)⟩
    · cases hm'
  · cases hm'

/-- The statements around the loop that copies `arguments` are kept. -/
theorem withoutCopyLoop?_inherits {name : Text} {rest : List Node}
    (h : withoutCopyLoop? name body = .ok (some rest)) (hbody : ∀ s ∈ body, Q .any s) :
    ∀ s ∈ rest, Q .any s := by
  induction body generalizing rest with
  | nil => cases h
  | cons s body ih =>
    have htail : ∀ t ∈ body, Q .any t := fun t ht => hbody t (mem_cons_of_mem _ ht)
    rw [withoutCopyLoop?] at h
    obtain ⟨isLoop, -, h⟩ := bind_eq_ok.1 h
    split at h
    · cases h
      exact htail
    · obtain ⟨o, ho, h⟩ := bind_eq_ok.1 h
      rcases o with _ | rest'
      · cases h
      · cases h
        intro t ht
        rcases mem_cons.1 ht with rfl | ht
        · exact hbody t mem_cons_self
        · exact ih ho htail t ht

end Node

section

variable (hQ : Hereditary Q)
include hQ

namespace Node

variable {n s : Node} {body : List Node}

/-- The parameters get at most the rest that `super(…)` passes on, and the
    statements only lose a loop. -/
theorem dropCopyLoop_inherits {arguments params params' body' : List Node}
    (h : dropCopyLoop arguments params body = .ok (params', body'))
    (harguments : ∀ a ∈ arguments, Q .any a) (hparams : ∀ p ∈ params, Q (.pattern .bound) p)
    (hbody : ∀ s ∈ body, Q .any s) :
    (∀ p ∈ params', Q (.pattern .bound) p) ∧ ∀ s ∈ body', Q .any s := by
  unfold dropCopyLoop at h
  split at h
  · rename_i argument
    split at h
    · rename_i name heq
      have hname : Q .any (identifier name) :=
        heq ▸ hQ.ungroup.2 (hQ.spread.1 (harguments _ (mem_singleton_self _)))
      obtain ⟨o, ho, h⟩ := bind_eq_ok.1 h
      rcases o with _ | rest
      · cases h
        exact ⟨hparams, hbody⟩
      · cases h
        refine ⟨fun p hp => ?_, withoutCopyLoop?_inherits ho hbody⟩
        exact mem_singleton.1 hp ▸ hQ.restPattern.2 (hQ.bound hname)
    · cases h
      exact ⟨hparams, hbody⟩
  · cases h
    exact ⟨hparams, hbody⟩

end Node

/-- What a declarator declares has what the declarator has. -/
theorem Node.declaredTarget_inherits {d : Node} {target : Option Node}
    (h : d.declaredTarget = .ok target) (hd : Q .any d) : ∀ t ∈ target, Q .any t := by
  -- what is declared has another role there
  have hany {role : Role} {o : Option Node} (hrole : role ≠ .unwalked) (ho : ∀ t ∈ o, Q role t) :
      ∀ t ∈ o, Q .any t := fun t ht => hQ.any (ho t ht) hrole
  unfold Node.declaredTarget at h
  split at h <;> cases h
  · exact fun t ht => Option.some.inj ht ▸ hQ.any (hQ.declarator.1 hd).1 Role.noConfusion
  · exact hany Role.noConfusion (hQ.functionExpr.1 hd).1
  · exact hany Role.noConfusion (hQ.functionDecl.1 hd).1
  · exact hany Role.noConfusion (hQ.classExpr.1 hd).1
  · exact hany Role.noConfusion (hQ.classDecl.1 hd).1

/-- So has the value that it gives. -/
theorem Node.declaredValue_inherits {d : Node} {value : Option Node}
    (h : d.declaredValue = .ok value) (hd : Q .any d) : ∀ v ∈ value, Q .any v := by
  unfold Node.declaredValue at h
  split at h <;> cases h
  · exact (hQ.declarator.1 hd).2
  · exact (hQ.forStmt.1 hd).1

namespace Heritage

open Node

variable {h : Heritage} {e s : Node} {arguments rest : List Node}

/-- What is appended to `[this]` is part of the expression. -/
theorem concatenated?_inherits {rest : Node} (hrest : concatenated? e = some rest) (he : Q .any e) :
    Q .any rest := by
  unfold concatenated? at hrest
  split at hrest
  · rename_i callee argument o heq
    have hcall : Q .any (call callee [argument] o) := heq ▸ hQ.ungroup.2 he
    split at hrest
    · cases hrest
      exact (hQ.call.1 hcall).2 _ (mem_singleton_self _)
    · cases hrest
  · cases hrest

/-- The arguments of `super(…)` are those passed on to the superclass. -/
theorem forwardedArguments?_inherits {name : Text} {receiver : Node}
    (hrest : h.forwardedArguments? name receiver arguments = .ok (some rest))
    (harguments : ∀ a ∈ arguments, Q .any a) : ∀ a ∈ rest, Q .any a := by
  have hspread {list : Node} (hlist : Q .any list) : ∀ a ∈ [spread list], Q .any a :=
    fun a ha => mem_singleton.1 ha ▸ hQ.spread.2 hlist
  -- `S.call(this, a)` gives the arguments one by one; `S.apply(this, list)` and
  -- `S.call.apply(S, [this].concat(list))` give a list of them
  unfold forwardedArguments? at hrest
  split at hrest
  · obtain ⟨isSuper, -, hrest⟩ := bind_eq_ok.1 hrest
    split at hrest
    · split at hrest
      · cases hrest
        exact fun a ha => harguments a (mem_cons_of_mem _ ha)
      · cases hrest
    · cases hrest
  · split at hrest
    · split at hrest
      · rename_i target list
        have hlist : Q .any list := harguments list (by simp)
        obtain ⟨isSuper, -, hrest⟩ := bind_eq_ok.1 hrest
        split at hrest
        · cases hrest
          exact hspread hlist
        · split at hrest
          · obtain ⟨isSuper', -, hrest⟩ := bind_eq_ok.1 hrest
            split at hrest
            · obtain ⟨rest', hrest', rfl⟩ := Option.map_eq_some_iff.1 (Except.ok.inj hrest)
              exact hspread (concatenated?_inherits hQ hrest' hlist)
            · cases hrest
          · cases hrest
      · cases hrest
    · cases hrest

theorem bareCall_inherits (he : Q .any e) : Q .any (bareCall e) := by
  have he := hQ.ungroup.2 he
  unfold bareCall
  extract_lets inner
  -- both layers are taken off in the same way: what remains is a part
  have hinner : Q .any inner := by
    dsimp only [inner]
    split
    · rename_i heq
      rw [heq] at he
      split
      · exact hQ.ungroup.2 (hQ.logical.1 he).1
      · exact he
    · exact he
  clear_value inner
  split
  · split
    · exact hQ.ungroup.2 (hQ.logical.1 hinner).2
    · exact hinner
  · exact hinner

/-- The arguments of `super(…)` are parts of the call of the superclass. -/
theorem superArguments?_inherits (hrest : h.superArguments? e = .ok (some rest)) (he : Q .any e) :
    ∀ a ∈ rest, Q .any a := by
  have he := bareCall_inherits hQ he
  unfold superArguments? at hrest
  split at hrest
  · rename_i heq
    rw [heq] at he
    split at hrest
    · exact forwardedArguments?_inherits hQ hrest (hQ.call.1 he).2
    · cases hrest
  · cases hrest

/-- What a call of the superclass passes on, and where its result goes, is part
    of the statement. -/
theorem superCall?_inherits {c : SuperCall} (hc : h.superCall? s = .ok (some c)) (hs : Q .any s) :
    c.All Q := by
  have hfound {m : Node} {holder : Option Text} {declares : Bool} {c : SuperCall}
      (hc : (do return (← h.superArguments? m).map fun arguments =>
        (⟨arguments, holder, declares⟩ : SuperCall)) = Except.ok (some c))
      (hm : Q .any m) (hholder : ∀ x ∈ holder, Q .any (.identifier x)) : c.All Q := by
    obtain ⟨o, ho, hc⟩ := bind_eq_ok.1 hc
    obtain ⟨arguments, rfl, rfl⟩ := Option.map_eq_some_iff.1 (Except.ok.inj hc)
    exact ⟨superArguments?_inherits hQ ho hm, hholder⟩
  -- the call is returned, stands by itself or in an assignment, or initializes
  -- a variable
  unfold superCall? at hc
  split at hc
  · rename_i m
    exact hfound hc (hQ.returnStmt.1 hs m rfl) nofun
  · rename_i m
    have hm : Q .any m.ungroup := hQ.ungroup.2 (hQ.exprStmt.1 hs)
    split at hc
    · rename_i operator holder right heq
      rw [heq] at hm
      split at hc
      · refine hfound hc (hQ.assignment.1 hm).2 fun x hx => ?_
        exact Option.some.inj hx ▸ hQ.any (hQ.assignment.1 hm).1 Role.noConfusion
      · exact hfound hc hm nofun
    · exact hfound hc hm nofun
  · rename_i kind d
    have hd : Q .any d := hQ.varDecl.1 hs d (mem_singleton_self d)
    obtain ⟨target, htarget, hc⟩ := bind_eq_ok.1 hc
    split at hc
    · rename_i holder
      obtain ⟨value, hvalue, hc⟩ := bind_eq_ok.1 hc
      split at hc
      · rename_i init
        refine hfound hc (declaredValue_inherits hQ hvalue hd init rfl) fun x hx => ?_
        exact Option.some.inj hx ▸ declaredTarget_inherits hQ htarget hd _ rfl
      · cases hc
    · cases hc
  · cases hc

/-- The first call of the superclass parts the statements into those before it
    and those after it. -/
theorem findSuperCall?_inherits {done before after : List Node} {c : SuperCall}
    (hc : h.findSuperCall? done rest = .ok (some (before, c, after))) (hdone : ∀ s ∈ done, Q .any s)
    (hrest : ∀ s ∈ rest, Q .any s) :
    (∀ s ∈ before, Q .any s) ∧ c.All Q ∧ ∀ s ∈ after, Q .any s := by
  induction rest generalizing done with
  | nil => cases hc
  | cons s rest ih =>
    have hs := hrest s mem_cons_self
    have hrest : ∀ t ∈ rest, Q .any t := fun t ht => hrest t (mem_cons_of_mem _ ht)
    rw [findSuperCall?] at hc
    obtain ⟨o, ho, hc⟩ := bind_eq_ok.1 hc
    rcases o with _ | c'
    · refine ih hc (fun t ht => ?_) hrest
      rcases mem_append.1 ht with ht | ht
      · exact hdone t ht
      · exact mem_singleton.1 ht ▸ hs
    · cases hc
      exact ⟨hdone, superCall?_inherits hQ ho hs, hrest⟩

end Heritage

namespace ConstructorDraft

open Node

/-- A variable for `this` has the property if its name has. -/
theorem bindThis_inherits {holder : Text} {declares : Bool} (h : Q .any (.identifier holder)) :
    Q .any (bindThis holder declares) := by
  unfold bindThis
  split
  · refine hQ.varDecl.2 fun d hd => mem_singleton.1 hd ▸ hQ.declarator.2
      ⟨hQ.bound h, fun a ha => ?_⟩
    exact Option.some.inj ha ▸ hQ.thisExpr
  · exact hQ.exprStmt.2 (hQ.assignment.2 ⟨hQ.assigned h, hQ.thisExpr⟩)

/-- A constructor that calls `super(…)` has the statements around the call, the
    arguments, and the variable for the result. -/
theorem withSuper_inherits {params before after whole : List Node} {c : SuperCall}
    {draft : ConstructorDraft} (h : withSuper params before c after whole = .ok draft)
    (hparams : ∀ p ∈ params, Q (.pattern .bound) p) (hbefore : ∀ s ∈ before, Q .any s)
    (hc : c.All Q) (hafter : ∀ s ∈ after, Q .any s) : draft.All Q := by
  -- the statements in place of the call stand between those before and those
  -- after it
  have hbody {middle : List Node} (hmiddle : ∀ s ∈ middle, Q .any s) :
      ∀ s ∈ before ++ middle ++ after, Q .any s := by
    intro s hs
    rcases mem_append.1 hs with hs | hs
    · rcases mem_append.1 hs with hs | hs
      · exact hbefore s hs
      · exact hmiddle s hs
    · exact hafter s hs
  have hcall : Q .any (exprStmt (call superExpr c.arguments false)) :=
    hQ.exprStmt.2 (hQ.call.2 ⟨hQ.superExpr, hc.1⟩)
  have halone : ∀ s ∈ [exprStmt (call superExpr c.arguments false)], Q .any s :=
    fun s hs => mem_singleton.1 hs ▸ hcall
  unfold withSuper at h
  split at h
  · obtain ⟨⟨params', body'⟩, hdrop, h⟩ := bind_eq_ok.1 h
    cases h
    exact dropCopyLoop_inherits hQ hdrop hc.1 hparams (hbody halone)
  · rename_i holder hholder
    dsimp only at h
    split at h
    · obtain ⟨⟨params', body'⟩, hdrop, h⟩ := bind_eq_ok.1 h
      cases h
      refine dropCopyLoop_inherits hQ hdrop hc.1 hparams (hbody fun s hs => ?_)
      rcases mem_cons.1 hs with rfl | hs
      · exact hcall
      · exact mem_singleton.1 hs ▸ bindThis_inherits hQ (hc.2 holder hholder)
    · obtain ⟨⟨params', body'⟩, hdrop, h⟩ := bind_eq_ok.1 h
      cases h
      obtain ⟨hparams', hbody'⟩ := dropCopyLoop_inherits hQ hdrop hc.1 hparams (hbody halone)
      exact ⟨hparams', filterDeclarators_inherits hQ.toCompositional hbody'⟩

end ConstructorDraft

/-- A draft is made of parts of the compiled constructor. -/
theorem ClassNames.draft?_inherits {names : ClassNames} {h : Heritage} {params : List Node}
    {compiled : Node} {draft : ConstructorDraft}
    (hdraft : names.draft? h params compiled = .ok (some draft))
    (hparams : ∀ p ∈ params, Q (.pattern .bound) p) (hcompiled : Q .any compiled) :
    draft.All Q := by
  obtain ⟨statements, hstatements, hdraft⟩ := bind_eq_ok.1 hdraft
  have hbody : ∀ s ∈ (statements.filter
      (!names.isCallCheck ·)).map Node.unwrapAssertions, Q .any s := by
    intro s hs
    obtain ⟨t, ht, rfl⟩ := mem_map.1 hs
    have ht :=
      Node.statements_inherit hQ.toCompositional hstatements hcompiled t (mem_filter.1 ht).1
    exact Node.unwrapAssertions_inherits hQ.toCompositional hQ.exchanges ht
  dsimp only at hdraft
  split at hdraft
  · obtain ⟨o, ho, hdraft⟩ := bind_eq_ok.1 hdraft
    rcases o with _ | ⟨before, c, after⟩
    · dsimp only at hdraft
      split at hdraft <;> cases hdraft
      exact ⟨hparams, hbody⟩
    · have ⟨hbefore, hc, hafter⟩ := Heritage.findSuperCall?_inherits hQ ho nofun hbody
      obtain ⟨draft', hdraft', hdraft⟩ := bind_eq_ok.1 hdraft
      cases hdraft
      exact ConstructorDraft.withSuper_inherits hQ hdraft' hparams hbefore hc hafter
  · cases hdraft
    exact ⟨hparams, hbody⟩

/-! ## Members -/

namespace Node

variable {n : Node} {isStatic : Bool}

/-- A key stays computed, or is spelled out. -/
theorem memberKey_inherits {property : Node} {computed : Bool} (h : Q (.key computed) property) :
    Q (.key (memberKey property computed).2) (memberKey property computed).1 := by
  unfold memberKey
  split
  · rename_i hcomputed
    split
    · unfold stringKey
      split
      · exact hQ.unwalked
      · exact hQ.literal_unwalked
    · exact hcomputed ▸ h
  · rename_i hcomputed
    exact (Bool.not_eq_true computed ▸ hcomputed) ▸ h

theorem methodValue?_inherits {f : Node} (h : methodValue? n = some f) (hn : Q .any n) :
    Q .any f := by
  unfold methodValue? at h
  split at h <;> cases h
  exact hQ.functionExpr.2 ⟨fun a hid => absurd hid (Option.not_mem_none a),
    (hQ.functionExpr.1 hn).2⟩

/-- The parts of a descriptor are values of its entries. -/
theorem descriptorParts?_inherit {entries : List Node} {parts : Table Node}
    (h : descriptorParts? entries = some parts) (hentries : ∀ e ∈ entries, Q .any e) :
    parts.All Q := by
  refine of_foldlM? (P := Table.All Q) (fun t e t₁ he ht ht₁ => ?_) (forall_mem_nil _) h
  have hentry := hentries e he
  split at ht₁ <;> cases ht₁ <;> exact ht.insert (hQ.entry.1 hentry).2

/-- A method that a descriptor defines is made of its key and of its part. -/
theorem descriptorMethod?_inherits {parts : Table Node} (hparts : parts.All Q) {key : Node}
    {computed : Bool} (hkey : Q (.key computed) key) {part : String} {kind : MethodKind}
    {ms : List Node} (h : descriptorMethod? parts key computed isStatic part kind = some ms) :
    ∀ m ∈ ms, Q .any m := by
  obtain ⟨-, rfl⟩ | ⟨value, f, hvalue, hf, rfl⟩ := descriptorMethod?_cases h
  · exact forall_mem_nil _
  · refine forall_mem_singleton.2 (hQ.method.2 ⟨hkey, ?_⟩)
    exact methodValue?_inherits hQ hf (hQ.ungroup.2 (hparts.get? hvalue))

/-- So are all of them. -/
theorem describedMethods?_inherits {descriptor : Node} {ms : List Node}
    (h : describedMethods? isStatic descriptor = some ms) (hdescriptor : Q .any descriptor) :
    ∀ m ∈ ms, Q .any m := by
  obtain ⟨entries, parts, keyNode, key, computed, getters, setters, values, hobject, hparts,
    hkeyNode, hkey, hgetters, hsetters, hvalues, rfl, -⟩ := describedMethods?_cases h
  have hdescriptor := hQ.ungroup.2 hdescriptor
  rw [hobject] at hdescriptor
  have hparts := descriptorParts?_inherit hQ hparts (hQ.object.1 hdescriptor)
  have hkeyNode : Q (.key true) keyNode.ungroup := hQ.ungroup.2 (hparts.get? hkeyNode)
  have hkey' := memberKey_inherits hQ hkeyNode
  rw [hkey] at hkey'
  refine forall_mem_append.2 ⟨forall_mem_append.2 ⟨?_, ?_⟩, ?_⟩
  · exact descriptorMethod?_inherits hQ hparts hkey' hgetters
  · exact descriptorMethod?_inherits hQ hparts hkey' hsetters
  · exact descriptorMethod?_inherits hQ hparts hkey' hvalues

/-- The methods of a list of descriptors are made of parts of the list. -/
theorem describedGroup?_inherits {group : Node} {ms : Option (List Node)}
    (h : describedGroup? isStatic group = some ms) (hgroup : Q .any group) :
    ∀ m ∈ ms.getD [], Q .any m := by
  obtain ⟨-, rfl⟩ | ⟨elements, runs, helements, rfl, hruns⟩ := describedGroup?_cases h
  · exact forall_mem_nil _
  · have helements := hQ.array.1 (helements ▸ hQ.ungroup.2 hgroup)
    intro m hm
    obtain ⟨run, hrun, hm⟩ := mem_flatten.1 hm
    obtain ⟨o, ho, hrun⟩ := exists_of_forall₂ hruns hrun
    obtain ⟨descriptor, rfl, hdescriptor⟩ := Option.bind_eq_some_iff.1 hrun
    exact describedMethods?_inherits hQ hdescriptor (helements descriptor ho) m hm

end Node

namespace ClassNames

open Node

variable {names : ClassNames} {s : Node}

/-- A member that is assigned is made of parts of the assignment. -/
theorem assignedMember?_inherits {m : Node}
    (h : names.assignedMember? s = .ok (some m)) (hs : Q .any s) : Q .any m := by
  obtain ⟨e, receiver, property, computed, o, right, isStatic, rfl, he, -, hm⟩ :=
    assignedMember?_cases h
  have ⟨htarget, hright⟩ := hQ.assignment.1 (he ▸ hQ.ungroup.2 (hQ.exprStmt.1 hs))
  have hkey := memberKey_inherits hQ (hQ.member.1 (hQ.written.1 htarget)).2
  obtain ⟨f, hf, -, rfl⟩ | ⟨-, -, rfl⟩ := hm
  · exact hQ.method.2 ⟨hkey, methodValue?_inherits hQ hf (hQ.ungroup.2 hright)⟩
  · exact hQ.classField.2 ⟨hkey, fun a ha => Option.some.inj ha ▸ hright⟩

/-- The members that a call registers are made of its arguments. -/
theorem registeredMembers?_inherits {ms : List Node}
    (h : names.registeredMembers? s = some ms) (hs : Q .any s) : ∀ m ∈ ms, Q .any m := by
  obtain ⟨e, callee, target, ofPrototype, rest, o, first, second, rfl, he, -, -,
    hfirst, hsecond, rfl⟩ :=
    registeredMembers?_cases h
  have hargs := (hQ.call.1 (he ▸ hQ.ungroup.2 (hQ.exprStmt.1 hs))).2
  refine forall_mem_append.2
    ⟨describedGroup?_inherits hQ hfirst (hargs ofPrototype (by simp)), ?_⟩
  rcases rest with _ | ⟨ofClass, rest⟩
  · cases hsecond
    exact forall_mem_nil _
  · exact describedGroup?_inherits hQ hsecond (hargs ofClass (by simp))

/-- What becomes of a statement has its properties. -/
theorem sortStatement_inherits {sorted : Sorted}
    (h : names.sortStatement s = .ok sorted) (hs : Q .any s) :
    (∀ m ∈ sorted.member?, Q .any m) ∧ (∀ m ∈ sorted.registeredMembers, Q .any m) ∧
      ∀ t ∈ sorted.kept?, Q .any t := by
  obtain ⟨o, ho, h⟩ := bind_eq_ok.1 h
  rcases o with _ | m
  · dsimp only at h
    split at h <;> cases h
    · exact ⟨nofun, registeredMembers?_inherits hQ ‹_› hs, nofun⟩
    · exact ⟨nofun, nofun, fun t ht => Option.some.inj ht ▸ hs⟩
  · cases h
    exact ⟨fun m' hm' => Option.some.inj hm' ▸ assignedMember?_inherits hQ ho hs, nofun, nofun⟩

end ClassNames

/-! ## Factories -/

open Node

/-- The superclass is an argument of the call that registers it. -/
theorem Heritage.registered?_inherits {ctorName : Text} {s superClass : Node}
    (h : Heritage.registered? ctorName s = some superClass) (hs : Q .any s) :
    Q .any superClass := by
  unfold Heritage.registered? at h
  split at h
  · have he := hQ.ungroup.2 (hQ.exprStmt.1 hs)
    split at h
    · rename_i heq
      rw [heq] at he
      split at h <;> cases h
      exact hQ.ungroup.2 ((hQ.call.1 he).2 _ (by simp))
    · cases h
  · cases h

/-- The superclass comes from the first statement or from the values, and the
    other statements are kept. -/
theorem Heritage.take_inherits (ctorName : Text) {values : Table Node} (hvalues : values.All Q)
    {before : List Node} (hbefore : ∀ s ∈ before, Q .any s) :
    (∀ c ∈ (Heritage.take ctorName values before).1.superClass, Q .any c) ∧
      ∀ s ∈ (Heritage.take ctorName values before).2, Q .any s := by
  unfold Heritage.take
  split
  · rename_i first rest
    have hrest : ∀ s ∈ rest, Q .any s := fun s hs => hbefore s (mem_cons_of_mem _ hs)
    split
    · rename_i superClass hsuper
      have hsuper := Heritage.registered?_inherits hQ hsuper (hbefore first mem_cons_self)
      split
      · split
        · rename_i value hvalue
          exact ⟨fun c hc => Option.some.inj hc ▸ hvalues.get? hvalue, hrest⟩
        · exact ⟨fun c hc => Option.some.inj hc ▸ hsuper, hrest⟩
      · exact ⟨fun c hc => Option.some.inj hc ▸ hsuper, hrest⟩
    · exact ⟨fun c hc => (by cases hc), hbefore⟩
  · exact ⟨fun c hc => (by cases hc), hbefore⟩

namespace FactoryBody

/-- The parts of the body of a factory are its statements. -/
theorem ofStatements?_inherits {statements : List Node} {b : FactoryBody}
    (h : ofStatements? statements = .ok (some b)) (hs : ∀ s ∈ statements, Q .any s) :
    Q .any (.identifier b.name) ∧ b.All Q := by
  obtain ⟨prototype, result, hsplit, hresult⟩ := ofStatements?_splitsAt h
  rw [hsplit.statements] at hs
  have hvariable : Q .any (.varDecl b.protoKind (prototype :: b.protoRest)) := hs _ (by simp)
  have hreturn : Q .any (.returnStmt (some result)) := hs _ (by simp)
  refine ⟨?_, fun s hb => hs s (by simp [hb]), hs _ (by simp), fun d hd => ?_,
    fun s ha => hs s (by simp [ha])⟩
  · -- the constructor is named by the statement that returns it
    exact hresult ▸ hQ.ungroup.2 (hQ.returnStmt.1 hreturn result rfl)
  · exact hQ.varDecl.1 hvariable d (mem_cons_of_mem _ hd)

end FactoryBody

namespace Factory

variable {f : Factory} {n : Node}

/-- The parts of a factory are those of the call of it. -/
theorem ofCall?_inherits {binding : Text} {encoding : Bool → Nat → Nat → ClassEncoding}
    {newArguments : List Node} (h : ofCall? binding encoding newArguments n = .ok (some f))
    (hbinding : Q .any (.identifier binding)) (hnew : ∀ a ∈ newArguments, Q .any a)
    (hn : Q .any n) : f.All Q := by
  unfold ofCall? at h
  split at h
  · obtain ⟨hcallee, harguments⟩ := hQ.call.1 hn
    have hcallee := hQ.ungroup.2 hcallee
    split at h
    · rename_i heq
      rw [heq] at hcallee
      obtain ⟨statements, hstatements, h⟩ := bind_eq_ok.1 h
      obtain ⟨o, ho, h⟩ := bind_eq_ok.1 h
      obtain ⟨body, rfl, rfl⟩ := Option.map_eq_some_iff.1 (Except.ok.inj h)
      have hstatements :=
        statements_inherit hQ.toCompositional hstatements (hQ.functionExpr.1 hcallee).2.2
      obtain ⟨hname, hbody⟩ := FactoryBody.ofStatements?_inherits hQ ho hstatements
      exact ⟨hbinding, harguments, hnew, hname, hbody⟩
    · cases h
  · cases h

/-- The factory that a declarator holds has the properties of the declarator. -/
theorem ofDeclarator?_inherits {d : Node} (h : ofDeclarator? d = .ok (some f)) (hd : Q .any d) :
    f.All Q := by
  unfold ofDeclarator? at h
  split at h
  · rename_i name init
    have ⟨hid, hinit⟩ := hQ.declarator.1 hd
    have hname := hQ.any hid Role.noConfusion
    have hinit := hinit init rfl
    unfold ofInitializer? at h
    split at h
    · have ⟨hcallee, hnew⟩ := hQ.newExpr.1 hinit
      split at h
      · exact ofCall?_inherits hQ h hname hnew (hQ.ungroup.2 hcallee)
      · cases h
    · exact ofCall?_inherits hQ h hname nofun (hQ.ungroup.2 hinit)
  · cases h

omit hQ in
/-- What holds of the arguments of a factory holds of its parameters' values. -/
theorem valuesOf_forall {P : Node → Prop} (hundefined : P (.identifier "undefined"))
    {params arguments : List Node} (harguments : ∀ a ∈ arguments, P a.ungroup) {t : Table Node}
    (ht : t.All fun _ => P) : (valuesOf params arguments t).All fun _ => P := by
  fun_induction valuesOf params arguments t with
  | case1 name params arguments t ih =>
    refine ih (fun a ha => harguments a (mem_of_mem_tail ha)) (ht.insert ?_)
    rcases arguments with _ | ⟨a, arguments⟩
    · exact hundefined
    · exact harguments a mem_cons_self
  | case2 => exact ht

/-- The values of the parameters are the arguments, or `undefined`. -/
theorem values?_inherit (hundefined : Q .any (.identifier "undefined")) (hf : f.All Q)
    {values : Table Node} (h : f.values? = some values) : values.All Q := by
  unfold values? at h
  split at h <;> cases h
  exact valuesOf_forall hundefined (fun a ha => hQ.ungroup.2 (hf.arguments a ha)) nofun

theorem functionParams_inherit (h : Q .any n) : ∀ p ∈ n.functionParams, Q (.pattern .bound) p := by
  unfold functionParams
  split
  · exact (hQ.functionDecl.1 h).2.1
  · nofun

theorem functionBody_inherits (h : Q .any n) : Q .any n.functionBody := by
  unfold functionBody
  split
  · exact (hQ.functionDecl.1 h).2.2
  · exact h

/-- What statements give to the class, and what stays, has what they had. -/
theorem sortStatements_inherit {names : ClassNames} {statements : List Node} {sorted : List Sorted}
    (h : statements.mapM names.sortStatement = .ok sorted) (hs : ∀ s ∈ statements, Q .any s) :
    ∀ x ∈ sorted, (∀ m ∈ x.member?, Q .any m) ∧ (∀ m ∈ x.registeredMembers, Q .any m) ∧
      ∀ t ∈ x.kept?, Q .any t := by
  intro x hx
  obtain ⟨s, hsmem, hsx⟩ := mem_of_mapM h hx
  exact ClassNames.sortStatement_inherits hQ hsx (hs s hsmem)

/-- What the names of a factory stand for has the properties of the factory, as
    have the statements before the constructor. -/
theorem reference?_inherits (hundefined : Q .any (.identifier "undefined")) (hf : f.All Q)
    {className : Text} {r : Reference} {before : List Node}
    (h : f.reference? className = some (r, before)) :
    r.names.className = className ∧ r.values.All Q ∧ (∀ c ∈ r.heritage.superClass, Q .any c) ∧
      ∀ s ∈ before, Q .any s := by
  obtain ⟨values, hvalues, hpair⟩ := Option.map_eq_some_iff.1 h
  cases hpair
  have hvalues := values?_inherit hQ hundefined hf hvalues
  exact ⟨rfl, hvalues, Heritage.take_inherits hQ f.body.name hvalues hf.body.before⟩

/-- The parts of a class have the properties of the factory. -/
theorem sorted?_inherits (hundefined : Q .any (.identifier "undefined")) (hf : f.All Q)
    {className : Text} {c : SortedClass} (h : f.sorted? className = .ok (some c)) :
    c.reference.names.className = className ∧ c.reference.values.All Q ∧
      (∀ s ∈ c.reference.heritage.superClass, Q .any s) ∧ c.All Q := by
  obtain ⟨before, sortedBefore, sortedAfter, hr, hsortedBefore, hsortedAfter, hdraft,
    hleading, hmembers, htrailing⟩ :=
    sorted?_cases h
  obtain ⟨hname, hvalues, hsuper, hbefore⟩ := reference?_inherits hQ hundefined hf hr
  have hsortedBefore := sortStatements_inherit hQ hsortedBefore hbefore
  have hsortedAfter := sortStatements_inherit hQ hsortedAfter hf.body.after
  refine ⟨hname, hvalues, hsuper, ?_, ?_, ?_, ?_⟩
  · rw [hleading]
    intro s hs
    obtain ⟨x, hx, hxs⟩ := mem_filterMap.1 hs
    exact (hsortedBefore x hx).2.2 s hxs
  · exact ClassNames.draft?_inherits hQ hdraft (functionParams_inherit hQ hf.body.declaration)
      (functionBody_inherits hQ hf.body.declaration)
  · have hsorted := forall_mem_append.2 ⟨hsortedBefore, hsortedAfter⟩
    rw [hmembers]
    refine forall_mem_append.2 ⟨fun m hm => ?_, fun m hm => ?_⟩
    · obtain ⟨x, hx, hxm⟩ := mem_filterMap.1 hm
      exact (hsorted x hx).1 m hxm
    · obtain ⟨x, hx, hxm⟩ := mem_flatMap.1 hm
      exact (hsorted x hx).2.1 m hxm
  · rw [htrailing]
    refine forall_mem_append.2 ⟨fun s hs => ?_, fun s hs => ?_⟩
    · -- the declarators beside the variable for the prototype are declared after the class
      split at hs
      · cases hs
      · exact mem_singleton.1 hs ▸ hQ.varDecl.2 hf.body.protoRest
    · obtain ⟨x, hx, hxs⟩ := mem_filterMap.1 hs
      exact (hsortedAfter x hx).2.2 s hxs

end Factory

end

/-- The body of the constructor of a class holds statements. -/
theorem Factory.sorted?_statements {f : Factory} {className : Text} {c : SortedClass}
    (h : f.sorted? className = .ok (some c)) :
    ∃ body, f.body.declaration.functionBody.statements = .ok body := by
  obtain ⟨-, -, -, -, -, -, hdraft, -⟩ := sorted?_cases h
  obtain ⟨body, hbody, -⟩ := bind_eq_ok.1 hdraft
  exact ⟨body, hbody⟩

end Resugar
