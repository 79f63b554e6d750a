import Resugar.Proofs.Class.Sorted
import Resugar.Proofs.Tree.Throughout

/-!
# Classes outside their factory

The parts of a class leave the factory (`SortedClass.finish`): other nodes take
the place of the names of the factory in them, and of local variables that stand
for `this`. The class has a property of the factory if these replacements keep
it: those of aliases (`Node.InlinesAliases`), and those of names
(`Reference.Transfers`).
-/

namespace Resugar

open List

variable {Q Q' : Role → Node → Prop}

namespace Node

variable {n s : Node} {body : List Node} {extra : List Text}

/-- In some statements aliases of `this` can be replaced, keeping `Q`. -/
def InlinesAliases (Q : Role → Node → Prop) (extra : List Text) (body : List Node) : Prop :=
  (∀ e ∈ aliasTable extra body, Q .any e.2 ∧ e.2.isIdentifier = false) →
    ∀ s ∈ withoutAliases (aliasTable extra body) body, Q .any s →
      Q .any (substitute (aliasTable extra body) s)

/-- They do so in a method. -/
def MethodInlines (Q : Role → Node → Prop) : Node → Prop
  | .method _ (.functionExpr _ _ body _ _) kind _ _ =>
    kind ≠ .constructor → ∀ statements, body.statements = .ok statements →
      InlinesAliases Q [] (aliasedBody statements)
  | _ => True

/-! ## Locals that stand for `this` -/

/-- A name that is put back stands for `this`, or is an alias that one of the
    statements declares. -/
theorem mem_aliasTable {e : Text × Node} (he : e ∈ aliasTable extra body) :
    e.2 = thisExpr ∨ ∃ s ∈ body, ∃ d ∈ s.declarators, thisAlias? d = some e := by
  refine foldlRecOn (motive := fun t : Table Node => ∀ e ∈ t, e.2 = thisExpr ∨ ∃ s ∈ body,
    ∃ d ∈ s.declarators, thisAlias? d = some e) _ _ (fun e he => ?_) (fun t ht a ha e he => ?_) e he
  · obtain ⟨name, -, rfl⟩ := mem_map.1 he
    exact .inl rfl
  · rcases Table.mem_insert he with he | rfl
    · exact ht e he
    · obtain ⟨d, hd, hda⟩ := mem_filterMap.1 (mem_filter.1 ha).1
      obtain ⟨s, hs, hd⟩ := mem_flatMap.1 hd
      exact .inr ⟨s, hs, d, hd, hda⟩

section

variable (hQ : Compositional Q)
include hQ

theorem declarators_inherit (h : Q .any s) : ∀ d ∈ s.declarators, Q .any d := by
  unfold declarators
  split
  · exact hQ.varDecl.1 h
  · exact forall_mem_nil _

/-- What the aliases in some statements stand for has the properties of the
    statements, and is no name. -/
theorem aliasTable_inherits (extra : List Text) (h : ∀ s ∈ body, Q .any s) :
    ∀ e ∈ aliasTable extra body, Q .any e.2 ∧ e.2.isIdentifier = false := by
  intro e he
  obtain hthis | ⟨s, hs, d, hd, hde⟩ := mem_aliasTable he
  · exact hthis ▸ ⟨hQ.thisExpr, rfl⟩
  · obtain ⟨init, rfl, hinit, hform⟩ := thisAlias?_cases hde
    have hvalue := (hQ.declarator.1 (declarators_inherit hQ (h s hs) _ hd)).2 init rfl
    refine ⟨hinit ▸ hQ.ungroup.2 hvalue, ?_⟩
    obtain hthis | ⟨receiver, property, o, hmember, -⟩ := hform
    · rw [hthis]
      rfl
    · rw [hmember]
      rfl

/-- Putting `this` back keeps the property, if aliases can be replaced. -/
theorem inlineThisAliases_inherits (hinline : InlinesAliases Q extra body)
    (h : ∀ s ∈ body, Q .any s) : ∀ s ∈ inlineThisAliases extra body, Q .any s := by
  intro s hs
  simp only [inlineThisAliases] at hs
  split at hs
  · exact h s hs
  · obtain ⟨t, ht, rfl⟩ := mem_map.1 hs
    exact hinline (aliasTable_inherits hQ extra h) t ht (filterDeclarators_inherits hQ h t ht)

/-! ## Variables that hold a property of `this` -/

/-- A declarator gets nothing but what the table and the declarator had. -/
theorem resolveDeclarator_inherits (reassigned : Text → Bool) {held : Table Node}
    (hheld : held.All Q) {d : Node} (hd : Q .any d) :
    Q .any (resolveDeclarator reassigned held d).1 ∧
      (resolveDeclarator reassigned held d).2.All Q := by
  unfold resolveDeclarator
  split
  · rename_i name init
    have ⟨hname, hinit⟩ := hQ.declarator.1 hd
    have hinit : Q .any init.ungroup := hQ.ungroup.2 (hinit init rfl)
    split
    · rename_i receiver property computed o heq
      rw [heq] at hinit
      split
      · exact ⟨hd, hheld.insert hinit⟩
      · split
        · rename_i place hplace
          split
          · exact ⟨hd, hheld⟩
          · -- what the variable holds takes its place before the property
            have hresolved : Q .any (member place property computed o) :=
              hQ.member.2 ⟨hheld.get? hplace, (hQ.member.1 hinit).2⟩
            exact ⟨hQ.declarator.2 ⟨hname,
              fun m hm => Option.some.inj hm ▸ hresolved⟩, hheld.insert hresolved⟩
        · exact ⟨hd, hheld⟩
      · exact ⟨hd, hheld⟩
    · exact ⟨hd, hheld⟩
  · exact ⟨hd, hheld⟩

/-- The declarators of a statement and the table keep the property, one
    declarator after the other. -/
theorem resolveDeclarators_inherits (reassigned : Text → Bool) {ds : List Node}
    (hds : ∀ d ∈ ds, Q .any d) {held : Table Node} (hheld : held.All Q) :
    (∀ d ∈ (resolveDeclarators reassigned held ds).1, Q .any d) ∧
      (resolveDeclarators reassigned held ds).2.All Q := by
  induction ds generalizing held with
  | nil => exact ⟨hds, hheld⟩
  | cons d ds ih =>
    have ⟨hd, hheld'⟩ := resolveDeclarator_inherits hQ reassigned hheld (hds d mem_cons_self)
    have ⟨hds', hheld''⟩ := ih (fun d hd => hds d (mem_cons_of_mem _ hd)) hheld'
    refine ⟨fun d' hd' => ?_, hheld''⟩
    rcases mem_cons.1 hd' with rfl | hd'
    · exact hd
    · exact hds' d' hd'

/-- So do all statements that share a table. -/
theorem resolveStatements_inherits {reassigned : Text → Bool} (h : ∀ s ∈ body, Q .any s)
    {held : Table Node} (hheld : held.All Q) :
    ∀ s ∈ resolveStatements reassigned held body, Q .any s := by
  fun_induction resolveStatements reassigned held body with
  | case1 held => nofun
  | case2 held kind ds rest ds' held' hds' ih =>
    have ⟨hds, hheld''⟩ := resolveDeclarators_inherits hQ reassigned
      (hQ.varDecl.1 (h _ mem_cons_self)) hheld
    rw [hds'] at hds hheld''
    intro s hs
    rcases mem_cons.1 hs with rfl | hs
    · exact hQ.varDecl.2 hds
    · exact ih (fun s hs => h s (mem_cons_of_mem _ hs)) hheld'' s hs
  | case3 held s rest hvar ih =>
    intro t ht
    rcases mem_cons.1 ht with rfl | ht
    · exact h _ mem_cons_self
    · exact ih (fun s hs => h s (mem_cons_of_mem _ hs)) hheld t ht

theorem resolveHeld_inherits (h : ∀ s ∈ body, Q .any s) : ∀ s ∈ resolveHeld body, Q .any s :=
  resolveStatements_inherits hQ h nofun

/-! ## Constructors -/

theorem definedProperty_inherits (h : Q .any s) : Q .any (definedProperty s) := by
  unfold definedProperty
  split
  · rename_i e
    split
    · rename_i f target key value o heq
      split
      · have hcall : Q .any (call (identifier f) [target, key, value] o) :=
          heq ▸ hQ.ungroup.2 (hQ.exprStmt.1 h)
        have hargs := (hQ.call.1 hcall).2
        have hkey : Q .any key.ungroup := hQ.ungroup.2 (hargs key (by simp))
        refine hQ.exprStmt.2 (hQ.assignment.2 ⟨?_, hargs value (by simp)⟩)
        split
        · exact hQ.written.2 (hQ.member.2 ⟨hQ.thisExpr, hQ.unwalked⟩)
        · exact hQ.written.2 (hQ.member.2 ⟨hQ.thisExpr, hkey⟩)
      · exact h
    · exact h
  · exact h

/-- A member keeps the property when `this` is put back in it. -/
theorem normalizeMember_inherits (hexchanges : Exchanges Q) {m m' : Node}
    (hinline : m.MethodInlines Q) (h : m.normalizeMember = .ok m') (hm : Q .any m) : Q .any m' := by
  unfold normalizeMember at h
  split at h
  · have ⟨hkey, hvalue⟩ := hQ.method.1 hm
    have ⟨hid, hparams, hbody⟩ := hQ.functionExpr.1 hvalue
    obtain ⟨statements, hstatements, h⟩ := bind_eq_ok.1 h
    obtain ⟨-, -, h⟩ := bind_eq_ok.1 h
    cases h
    refine hQ.method.2 ⟨hkey, hQ.functionExpr.2
      ⟨hid, hparams, withStatements_inherits hQ hstatements ?_⟩⟩
    have hall := statements_inherit hQ hstatements hbody
    split
    · exact resolveHeld_inherits hQ hall
    · rename_i hkind
      refine inlineThisAliases_inherits hQ ?_ (resolveHeld_inherits hQ fun s hs => ?_)
      · exact hinline (fun h => hkind (by simp [h])) statements hstatements
      · obtain ⟨t, ht, rfl⟩ := mem_map.1 hs
        exact unwrapAssertions_inherits hQ hexchanges (hall t ht)
  · cases h
    exact hm

end

end Node

namespace ConstructorDraft

open Node

theorem dropReturn_subset (kept : Option Text) (body : List Node) :
    dropReturn kept body ⊆ body := by
  unfold dropReturn
  split
  · exact dropLast_subset body
  · exact List.Subset.refl body

/-- A constructor has what its draft had, and aliases can still be replaced. -/
theorem finish_inherits (hQ : Compositional Q) {c : ConstructorDraft}
    (hinline : InlinesAliases Q c.inlined.toList c.body) {compiled ctor : Node}
    (h : c.finish compiled = .ok (some ctor)) (hc : c.All Q) {old : List Node}
    (hcompiled : compiled.statements = .ok old) : Q .any ctor ∧ ctor.MethodInlines Q := by
  obtain ⟨-, -, h⟩ := bind_eq_ok.1 h
  dsimp only at h
  split at h
  · cases h
  · cases h
    refine ⟨?_, fun hkind => absurd rfl hkind⟩
    refine hQ.method.2 ⟨hQ.unwalked,
      hQ.functionExpr.2 ⟨nofun, hc.1, withStatements_inherits hQ hcompiled ?_⟩⟩
    intro s hs
    obtain ⟨t, ht, rfl⟩ := mem_map.1 (dropReturn_subset _ _ hs)
    exact definedProperty_inherits hQ (inlineThisAliases_inherits hQ hinline hc.2 t ht)

end ConstructorDraft

/-! ## References out of a factory -/

namespace Reference

open Node

variable {r : Reference} {n : Node}

/-- The names of a factory can be replaced, so that what has one property inside
    has another one outside. -/
structure Transfers (r : Reference) (Q Q' : Role → Node → Prop) : Prop where
  kept {role : Role} {n : Node} : Q role n → Q' role n
  resolve {role : Role} {n : Node} : role ≠ .unwalked → Q role n → Q' role (r.resolve n)
  resolveInMethod {isStatic : Bool} {n n' : Node} : Q .any n →
    n.replaceAllM (r.resolveInMethod? isStatic) false = .ok n' → Q' .any n'

section

variable (hQ : Compositional Q)
include hQ

/-- What stands for a name of the factory is the class or one of the values. -/
theorem ofName?_inherits (hclass : Q .any (.identifier r.names.className))
    (hvalues : r.values.All Q) {name : Text} (h : r.ofName? name = some n) : Q .any n := by
  unfold ofName? at h
  split at h
  · cases h
    exact hQ.member.2 ⟨hclass, hQ.unwalked⟩
  · split at h
    · cases h
      exact hclass
    · exact hvalues.get? h

/-- The arguments of a method on `super` are those that come after `this`, or
    one of them spread. -/
theorem methodArguments?_inherits {name : Text} {arguments arguments' : List Node}
    (h : methodArguments? name arguments = some arguments')
    (harguments : ∀ a ∈ arguments, Q .any a) : ∀ a ∈ arguments', Q .any a := by
  unfold methodArguments? at h
  split at h
  · split at h
    · cases h
      exact fun a ha => harguments a (mem_cons_of_mem _ ha)
    · split at h <;> cases h
      · exact fun a ha => mem_singleton.1 ha ▸ hQ.spread.2 (harguments _ (by simp))
      · nofun
  · cases h

/-- A call on `super` is made of parts of the call that it stands for. -/
theorem superMethodCall?_inherits {isStatic : Bool} {n' : Node}
    (h : r.superMethodCall? isStatic n = .ok (some n')) (hn : Q .any n) : Q .any n' := by
  obtain ⟨owner, property, computed, o, callProperty, callComputed, o', arguments, o'', name,
    arguments', rfl, -, -, harguments', rfl⟩ := superMethodCall?_cases h
  have ⟨hcallee, harguments⟩ := hQ.call.1 hn
  have hproperty := (hQ.member.1 (hQ.member.1 hcallee).1).2
  refine hQ.call.2 ⟨hQ.member.2 ⟨hQ.superExpr, hproperty⟩, ?_⟩
  exact methodArguments?_inherits hQ harguments' harguments

end

section

variable (hr : r.Transfers Q Q') (hQ : Compositional Q) (hQ' : Compositional Q')
include hr

/-- A key leaves the factory as a node only if it is computed. -/
theorem resolveKey_inherits {key : Node} {computed : Bool} (h : Q (.key computed) key) :
    Q' (.key computed) (r.resolveKey computed key) := by
  unfold resolveKey
  split
  · rename_i hcomputed
    rw [hcomputed] at h ⊢
    exact hr.resolve Role.noConfusion h
  · exact hr.kept h

include hQ hQ'

/-- The body of a method leaves the factory. -/
theorem resolveBody_inherits {isStatic : Bool} {body body' : Node}
    (h : r.resolveBody isStatic body = .ok body') (hbody : Q .any body) : Q' .any body' := by
  obtain ⟨statements, hstatements, h⟩ := bind_eq_ok.1 h
  obtain ⟨statements', hstatements', h⟩ := bind_eq_ok.1 h
  cases h
  refine withStatements_inherits hQ' hstatements fun s' hs' => ?_
  obtain ⟨s, hs, hss'⟩ := mem_of_mapM hstatements' hs'
  exact hr.resolveInMethod (statements_inherit hQ hstatements hbody s hs) hss'

/-- A member leaves the factory with its key, its parameters and its body. -/
theorem resolveMember_inherits {m m' : Node} (h : r.resolveMember m = .ok m') (hm : Q .any m) :
    Q' .any m' := by
  unfold resolveMember at h
  split at h
  · obtain ⟨body', hbody', h⟩ := bind_eq_ok.1 h
    cases h
    have ⟨hkey, hvalue⟩ := hQ.method.1 hm
    have ⟨hid, hparams, hbody⟩ := hQ.functionExpr.1 hvalue
    refine hQ'.method.2 ⟨resolveKey_inherits hr hkey,
      hQ'.functionExpr.2 ⟨fun a ha => hr.kept (hid a ha), ?_,
      resolveBody_inherits hr hQ hQ' hbody' hbody⟩⟩
    intro p' hp'
    obtain ⟨p, hp, rfl⟩ := mem_map.1 hp'
    exact hr.resolve Role.noConfusion (hparams p hp)
  · cases h
    have ⟨hkey, hvalue⟩ := hQ.classField.1 hm
    refine hQ'.classField.2 ⟨resolveKey_inherits hr hkey, fun a ha => ?_⟩
    obtain ⟨v, hv, rfl⟩ := Option.map_eq_some_iff.1 ha
    exact hr.resolve Role.noConfusion (hvalue v hv)
  · cases h
    exact hr.kept hm

end

end Reference

/-! ## Classes -/

open Node

/-- All parts of a rebuilt class have a property. -/
structure RebuiltClass.All (Q : Role → Node → Prop) (c : RebuiltClass) : Prop where
  leading : ∀ s ∈ c.leading, Q .any s
  members : ∀ m ∈ c.members, Q .any m
  superClass : ∀ s ∈ c.superClass, Q .any s
  trailing : ∀ s ∈ c.trailing, Q .any s

/-- The class has what its parts have, if the replacements keep it. -/
theorem SortedClass.finish_inherits {c : SortedClass} (hr : c.reference.Transfers Q Q')
    (hQ : Compositional Q) (hexchanges : Exchanges Q) (hQ' : Compositional Q') (hparts : c.All Q)
    (hdraft : InlinesAliases Q c.draft.inlined.toList c.draft.body)
    (hmethods : ∀ m ∈ c.members, m.MethodInlines Q)
    (hsuper : ∀ s ∈ c.reference.heritage.superClass, Q' .any s) {compiled : Node} {old : List Node}
    (hcompiled : compiled.statements = .ok old) {rebuilt : RebuiltClass}
    (h : c.finish compiled = .ok rebuilt) : rebuilt.All Q' := by
  obtain ⟨ctor, hctor, h⟩ := bind_eq_ok.1 h
  obtain ⟨normalized, hnormalized, h⟩ := bind_eq_ok.1 h
  obtain ⟨members, hmembers, h⟩ := bind_eq_ok.1 h
  cases h
  have hresolve {ns : List Node} (hns : ∀ n ∈ ns, Q .any n) :
      ∀ n ∈ ns.map c.reference.resolve, Q' .any n := by
    intro n hn
    obtain ⟨m, hm, rfl⟩ := mem_map.1 hn
    exact hr.resolve Role.noConfusion (hns m hm)
  refine ⟨hresolve hparts.leading, fun m'' hm'' => ?_, hsuper, hresolve hparts.trailing⟩
  obtain ⟨m', hm', hmm''⟩ := mem_of_mapM hmembers hm''
  obtain ⟨m, hm, hmm'⟩ := mem_of_mapM hnormalized hm'
  refine Reference.resolveMember_inherits hr hQ hQ' hmm'' ?_
  rcases mem_append.1 hm with hm | hm
  · -- the constructor has been looked through for aliases already
    obtain rfl := Option.mem_toList.1 hm
    have ⟨hm, hinlines⟩ := ConstructorDraft.finish_inherits hQ hdraft hctor hparts.draft hcompiled
    exact normalizeMember_inherits hQ hexchanges hinlines hmm' hm
  · exact normalizeMember_inherits hQ hexchanges (hmethods m hm) hmm' (hparts.members m hm)

namespace Factory

variable {f : Factory}

/-- The statements in place of a factory have what it and the class have. -/
theorem toStatements_inherit (hQ : Hereditary Q) (hf : f.All Q) {className : Text}
    (hname : Q .any (.identifier className)) {c : RebuiltClass} (hc : c.All Q) {kind : VariableKind}
    {statements : List Node} (h : f.toStatements kind className c = some statements) :
    ∀ s ∈ statements, Q .any s := by
  have hid : ∀ a ∈ some (identifier className), Q .name a :=
    fun a ha => Option.some.inj ha ▸ hQ.name hname
  have hbody : Q .any (classBody c.members) := hQ.classBody.2 hc.members
  have hdeclaration : ∀ s ∈ c.leading ++
      [classDecl (some (identifier className)) c.superClass (classBody c.members)] ++
        c.trailing, Q .any s := by
    intro s hs
    rcases mem_append.1 hs with hs | hs
    · rcases mem_append.1 hs with hs | hs
      · exact hc.leading s hs
      · exact mem_singleton.1 hs ▸ hQ.classDecl.2 ⟨hid, hc.superClass, hbody⟩
    · exact hc.trailing s hs
  have hinstance {callee : Node} (hcallee : Q .any callee) : Q .any (varDecl kind.orVar
      [declarator (identifier f.binding) (some (newExpr callee f.newArguments))]) := by
    refine hQ.varDecl.2 fun d hd => mem_singleton.1 hd ▸ hQ.declarator.2 ⟨?_, fun a ha => ?_⟩
    · exact hQ.bound hf.binding
    · exact Option.some.inj ha ▸ hQ.newExpr.2 ⟨hcallee, hf.newArguments⟩
  -- under `new`, the class stands in the initializer if it has the name of the
  -- variable, and before the variable if not
  simp only [toStatements] at h
  split at h
  · cases h
    exact hdeclaration
  · split at h
    · split at h <;> cases h
      intro s hs
      rw [mem_singleton.1 hs]
      exact hinstance (hQ.parenthesized.2 (hQ.classExpr.2 ⟨hid, hc.superClass, hbody⟩))
    · cases h
      intro s hs
      rcases mem_append.1 hs with hs | hs
      · exact hdeclaration s hs
      · exact mem_singleton.1 hs ▸ hinstance hname

end Factory

/-! ## What holds throughout a class -/

section

variable {p : Node → Prop} (hp : Stable p)
include hp

/-- What holds throughout markup and module items is not about names, so any
    alias can be replaced. -/
theorem Node.inlinesAliases_holds (extra : List Text) (body : List Node) :
    InlinesAliases (fun _ n => n.Holds p) extra body := by
  intro hvalues s _ hs
  refine hs.replaceAll hp (fun _ m m' hm' => ?_) false
  obtain ⟨x, hx, hget⟩ := Option.bind_eq_some_iff.1 hm'
  rw [identifierName?_eq_some.1 hx]
  exact ⟨rfl, fun _ => (hvalues _ (Table.mem_of_get? hget)).1⟩

theorem Node.methodInlines_holds (n : Node) : n.MethodInlines fun _ n => n.Holds p := by
  unfold MethodInlines
  split
  · exact fun _ _ _ => inlinesAliases_holds hp _ _
  · trivial

namespace Reference

variable {r : Reference} (hvalues : r.values.All fun _ n => n.Holds p)
include hvalues

omit hp in
/-- Only names and members are replaced, and by what has the property. -/
theorem resolve?_holds {n n' : Node} (h : r.resolve? n = some n') :
    n.isForeign = false ∧ n'.Holds p := by
  unfold resolve? at h
  split at h
  · exact ⟨rfl, ofName?_inherits (holds_compositional p) holds_identifier hvalues h⟩
  · split at h <;> cases h
    exact ⟨rfl, holds_identifier⟩
  · cases h

theorem transfers_holds : r.Transfers (fun _ n => n.Holds p) fun _ n => n.Holds p where
  kept h := h
  resolve _ h := h.replaceAll hp
    (fun _ _ _ hm' => (resolve?_holds hvalues hm').imp_right fun h _ => h) false
  resolveInMethod h hr := by
    refine h.replaceAllM hp (fun nested m m' hm' => ?_) hr
    unfold resolveInMethod? at hm'
    split at hm'
    · split at hm'
      · cases hm'
      · exact ⟨rfl, superMethodCall?_inherits (holds_compositional p) hm'⟩
    · exact (resolve?_holds hvalues (Except.ok.inj hm')).imp_right fun h _ => h

end Reference

/-- What holds throughout a factory holds throughout what replaces it. -/
theorem Factory.statements_hold {d : Node} (hd : d.Holds p) {f : Factory}
    (hf : ofDeclarator? d = .ok (some f)) {className : Text} {c : RebuiltClass}
    (hc : f.rebuild className = .ok (some c)) {kind : VariableKind} {statements : List Node}
    (h : f.toStatements kind className c = some statements) : ∀ s ∈ statements, s.Holds p := by
  have hQ := hp.hereditary
  have hfactory : f.All fun _ n => n.Holds p := ofDeclarator?_inherits hQ hf hd
  obtain ⟨o, hsorted, hc⟩ := bind_eq_ok.1 hc
  rcases o with _ | sorted
  · cases hc
  · obtain ⟨c', hc', hc⟩ := bind_eq_ok.1 hc
    cases hc
    obtain ⟨-, hvalues, hsuper, hparts⟩ := sorted?_inherits hQ holds_identifier hfactory hsorted
    obtain ⟨old, hold⟩ := sorted?_statements hsorted
    refine toStatements_inherit hQ hfactory holds_identifier ?_ h
    exact sorted.finish_inherits (Reference.transfers_holds hp hvalues) hQ.toCompositional
      hQ.exchanges hQ.toCompositional hparts (inlinesAliases_holds hp _ _)
        (fun m _ => m.methodInlines_holds hp) hsuper hold hc'

end

end Resugar
