import Resugar.Proofs.Class.Finished

/-!
# Rebuilt classes

When the parts of a class leave the factory, the replacements look at names
only, so a name that is bound or written again in a part gets replaced there
too. A class is *hygienic* (`SortedClass.isHygienic`) if no name is bound that
anything but a name takes the place of, and none is written that anything but a
name or a member takes the place of.
-/

namespace Resugar

variable {R R' : Rule}

namespace Node

variable {n s : Node} {body : List Node} {extra : List Text}

theorem statements_fit (h : n.statements = .ok body) (hn : n.Fits R .any) :
    ∀ s ∈ body, s.Fits R .any :=
  statements_inherit R.compositional h hn

theorem statements_withStatements {old : List Node} (h : n.statements = .ok old) :
    (n.withStatements body).statements = .ok body := by
  obtain rfl | rfl | rfl := statements_cases h <;> rfl

/-- A body fits with other statements that do. -/
theorem withStatements_fits {old : List Node} (h : n.statements = .ok old)
    (hbody : ∀ s ∈ body, s.Fits R .any) : (n.withStatements body).Fits R .any :=
  withStatements_inherits R.compositional h hbody

/-! ## Locals that stand for `this` -/

/-- The aliases of `this` in some statements can be put back: none is bound, and
    none is written unless it stands for a member. -/
def aliasesApart (extra : List Text) (body : List Node) : Bool :=
  (withoutAliases (aliasTable extra body) body).all
    (·.conforms (.keeping (aliasTable extra body).get?) .any)

/-- Aliases of `this` can be replaced where the rule asks for no shapes, or
    where they are apart. -/
theorem inlinesAliases_fits (hR : R.Even)
    (hapart : R.shaped = true → aliasesApart extra body = true) :
    InlinesAliases R.fits extra body := by
  intro hvalues t ht htR
  rcases hshaped : R.shaped with _ | _
  · -- no role counts, so that what stands for an alias can stand anywhere
    refine htR.replaceNames Role.noConfusion (.refl R) (fun role x _ hx => ?_) false
    rcases hget : (aliasTable extra body).get? x with _ | v
    · exact fits_identifier_iff.2 hx
    · exact (hvalues _ (Table.mem_of_get? hget)).1.of_even hR hshaped role
  · have htkeeping := List.all_eq_true.1 (hapart hshaped) t ht
    refine htR.replaceNames_keeping htkeeping hR hshaped (fun x v hget => ?_) Role.noConfusion false
    obtain ⟨hv, hname⟩ := hvalues _ (Table.mem_of_get? hget)
    refine ⟨hv, fun y hy => ?_⟩
    cases hy.symm ▸ hname

/-- The aliases of `this` in a method can be put back. -/
def isMethodApart : Node → Bool
  | .method _ (.functionExpr _ _ body _ _) kind _ _ =>
    kind == .constructor || (body.statements.toOption.all fun statements =>
      aliasesApart [] (aliasedBody statements))
  | _ => true

/-- The same for the aliases in a method. -/
theorem methodInlines_fits (hR : R.Even) (hapart : R.shaped = true → n.isMethodApart = true) :
    n.MethodInlines R.fits := by
  unfold MethodInlines
  split
  · intro hkind statements hstatements
    refine inlinesAliases_fits hR fun hshaped => ?_
    simpa [isMethodApart, hstatements, hkind, Except.toOption] using hapart hshaped
  · trivial

end Node

/-! ## References out of a factory -/

namespace Reference

open Node

variable {r : Reference} {n : Node}

/-- The names of a factory can be replaced in a tree that fits one rule, so that
    it fits another one. -/
structure Resolves (r : Reference) (R R' : Rule) : Prop where
  looser : R.Looser R'
  even : R'.Even
  className : R'.used r.names.className = true ∧ R'.written r.names.className = true
  names : ∀ role x, role ≠ .unwalked → R.admits role (identifier x) = true →
    ((r.ofName? x).getD (identifier x)).Fits R' role

/-- Moreover, what is kept as it is fits the rule outside as well. -/
structure Carries (r : Reference) (R R' : Rule) : Prop extends r.Resolves R R' where
  le : R.Le R'

/-- Where no shapes count, all names can be replaced. -/
theorem carries_of_unshaped (hR : R.Simple) (hshaped : R.shaped = false)
    (hclass : R.used r.names.className = true) (hvalues : r.values.All R.fits) : r.Carries R R := by
  refine ⟨⟨.refl R, hR.even, ⟨hclass, (hR.names _).2⟩, fun role x _ hx => ?_⟩, .refl R⟩
  rcases hget : r.ofName? x with _ | v
  · exact fits_identifier_iff.2 hx
  · have hvalue := ofName?_inherits R.compositional (fits_identifier.2 hclass) hvalues hget
    exact hvalue.of_even hR.even hshaped role

/-- Where shapes count, names can be replaced if none is bound or written that
    something else takes the place of. -/
theorem carries_keeping (hR : R.Simple) (hshaped : R.shaped = true)
    (hclass : R.used r.names.className = true) (hvalues : r.values.All R.fits) :
    r.Carries (R.meet (.keeping r.ofName?)) R := by
  have hle := Rule.meet_le R (.keeping r.ofName?)
  refine ⟨⟨hle.toLooser, hR.even, ⟨hclass, (hR.names _).2⟩, fun role x hrole hx => ?_⟩, hle⟩
  have hxR := hle.admits hx
  rcases hget : r.ofName? x with _ | v
  · exact fits_identifier_iff.2 hxR
  · have hvalue := ofName?_inherits R.compositional (fits_identifier.2 hclass) hvalues hget
    exact hvalue.of_keeping hR.even hshaped hxR ((Rule.meet_le_right ..).admits hx) hget
      (fun y _ => hR.names y) hrole

section

variable (hr : r.Resolves R R')
include hr

/-- What takes the place of a node fits outside, once what stands below does. -/
theorem resolve?_fits {role : Role} (hrole : role ≠ .unwalked) (hroot : R.admits role n = true)
    (hfields : n.FieldsFit R' role) : ((r.resolve? n).getD n).Fits R' role := by
  unfold resolve?
  split
  · exact hr.names role _ hrole hroot
  · split
    · have hroot' := hr.looser.admits rfl hroot
      exact fits_identifier_of_member hr.even hroot' hrole hr.className.1 hr.className.2
    · exact fits_of_fieldsFit hr.looser rfl hroot hfields
  · rename_i hid _
    refine fits_of_fieldsFit hr.looser ?_ hroot hfields
    exact Option.eq_none_iff_forall_ne_some.2 fun x hx => hid x (identifierName?_eq_some.1 hx)

/-- A tree that fits in the factory fits outside, its names replaced. -/
theorem resolve_fits {role : Role} (hn : n.Fits R role) (hrole : role ≠ .unwalked) :
    (r.resolve n).Fits R' role :=
  fits_replaceAll hr.looser.tag
    (fun _ _ _ hrole hroot hfields => resolve?_fits hr hrole hroot hfields) hn hrole false

/-- The same for a node in a method, where methods may be called on `super`. -/
theorem resolveInMethod?_fits {isStatic nested : Bool} {o : Option Node} {role : Role}
    (hrole : role ≠ .unwalked) (hroot : R.admits role n = true) (hfields : n.FieldsFit R' role)
    (h : r.resolveInMethod? isStatic nested n = .ok o) : (o.getD n).Fits R' role := by
  unfold resolveInMethod? at h
  split at h
  · have hroot' := hr.looser.admits rfl hroot
    have hcall := fits_iff.2 ⟨hroot', hfields⟩
    split at h
    · cases h
      exact hcall
    · rcases o with _ | n'
      · exact hcall
      · have hsuper := superMethodCall?_inherits R'.compositional h (hcall.any hrole)
        exact hsuper.replace hr.even rfl (fun _ => rfl) hroot' hrole
  · cases h
    exact resolve?_fits hr hrole hroot hfields

/-- The body of a method that fits inside fits outside. -/
theorem resolveInMethod_fits {isStatic : Bool} {n' : Node} (hn : n.Fits R .any)
    (h : n.replaceAllM (r.resolveInMethod? isStatic) false = .ok n') : n'.Fits R' .any :=
  fits_replaceAllM hr.looser.tag
    (fun _ _ _ _ hrole hroot hfields h =>
      resolveInMethod?_fits hr hrole hroot hfields h) hn Role.noConfusion h

end

theorem Carries.transfers (hr : r.Carries R R') : r.Transfers R.fits R'.fits where
  kept h := h.mono hr.le
  resolve hrole hn := resolve_fits hr.toResolves hn hrole
  resolveInMethod hn h := resolveInMethod_fits hr.toResolves hn h

end Reference

/-! ## Classes -/

open Node

namespace SortedClass

/-- No name is bound that anything but a name takes the place of outside of the
    factory, and none is written that anything but a name or a member takes the
    place of. -/
def isHygienic (c : SortedClass) : Bool :=
  let R := Rule.keeping c.reference.ofName?
  (c.leading ++ c.draft.body ++ c.members ++ c.trailing).all (·.conforms R .any) &&
    c.draft.params.all (·.conforms R (.pattern .bound)) &&
      aliasesApart c.draft.inlined.toList c.draft.body &&
      c.members.all isMethodApart

variable {c : SortedClass}

/-- The parts of a hygienic class fit a rule that the names of the factory can
    be replaced by. -/
theorem All.keeping (hc : c.All R.fits) (h : c.isHygienic = true) :
    c.All (R.meet (.keeping c.reference.ofName?)).fits := by
  simp only [isHygienic, Bool.and_eq_true, List.all_append] at h
  obtain ⟨⟨⟨⟨⟨⟨hleading, hbody⟩, hmembers⟩, htrailing⟩, hparams⟩, -⟩, -⟩ := h
  have hmeet {ns : List Node} {role : Role} (hns : ∀ n ∈ ns, n.Fits R role)
      (h : ns.all (·.conforms (.keeping c.reference.ofName?) role) = true) :
      ∀ n ∈ ns, n.Fits (R.meet (.keeping c.reference.ofName?)) role :=
    fun n hn => (hns n hn).meet (List.all_eq_true.1 h n hn)
  exact ⟨hmeet hc.leading hleading, ⟨hmeet hc.draft.1 hparams, hmeet hc.draft.2 hbody⟩,
    hmeet hc.members hmembers, hmeet hc.trailing htrailing⟩

/-- A class leaves the factory by a rule that leads to another one. -/
theorem finish_carries (hr : c.reference.Carries R R') (hR : R.Even) (hparts : c.All R.fits)
    (hhygienic : R.shaped = true → c.isHygienic = true)
    (hsuper : ∀ s ∈ c.reference.heritage.superClass, s.Fits R' .any) {compiled : Node}
    {old : List Node} (hcompiled : compiled.statements = .ok old) {rebuilt : RebuiltClass}
    (h : c.finish compiled = .ok rebuilt) : rebuilt.All R'.fits := by
  have haliases (hshaped : R.shaped = true) : aliasesApart c.draft.inlined.toList c.draft.body =
      true ∧ ∀ m ∈ c.members, m.isMethodApart = true := by
    have hhygienic := hhygienic hshaped
    simp only [isHygienic, Bool.and_eq_true, List.all_eq_true] at hhygienic
    exact ⟨hhygienic.1.2, hhygienic.2⟩
  refine finish_inherits hr.transfers R.compositional hR.exchanges R'.compositional hparts ?_
    (fun m hm => ?_) hsuper hcompiled h
  · exact inlinesAliases_fits hR fun hshaped => (haliases hshaped).1
  · exact methodInlines_fits hR fun hshaped => (haliases hshaped).2 m hm

/-- The class fits the rule of its parts, if hygienic or without shapes. -/
theorem finish_fits (hR : R.Simple) (hclass : R.used c.reference.names.className = true)
    (hvalues : c.reference.values.All R.fits)
    (hsuper : ∀ s ∈ c.reference.heritage.superClass, s.Fits R .any) (hparts : c.All R.fits)
    (hhygienic : R.shaped = true → c.isHygienic = true) {compiled : Node} {old : List Node}
    (hcompiled : compiled.statements = .ok old) {rebuilt : RebuiltClass}
    (h : c.finish compiled = .ok rebuilt) : rebuilt.All R.fits := by
  rcases hshaped : R.shaped with _ | _
  · have hr := Reference.carries_of_unshaped hR hshaped hclass hvalues
    exact finish_carries hr hR.even hparts hhygienic hsuper hcompiled h
  · have hr := Reference.carries_keeping hR hshaped hclass hvalues
    have hhygienic := hhygienic hshaped
    refine finish_carries hr ⟨?_, fun hmeet => ?_⟩ (hparts.keeping hhygienic)
      (fun _ => hhygienic) hsuper hcompiled h
    · exact Bool.and_eq_true_iff.2 ⟨hR.initialized, rfl⟩
    · rw [show (R.meet _).shaped = (R.shaped || _) from rfl, hshaped] at hmeet
      cases hmeet

end SortedClass

namespace Factory

variable {f : Factory}

/-- All parts of a factory fit a rule. -/
abbrev Fits (R : Rule) (f : Factory) : Prop :=
  f.All R.fits

/-- A class that is hygienic fits the rule of its factory; any class does if
    shapes do not count. -/
theorem rebuild_fits (hR : R.Simple) (hundefined : R.used "undefined" = true) (hf : f.Fits R)
    {className : Text} (hname : R.used className = true) {c : RebuiltClass}
    (h : f.rebuild className = .ok (some c))
    (hhygienic : R.shaped = true → ∀ sorted, f.sorted? className = .ok (some sorted) →
      sorted.isHygienic = true) : c.All R.fits := by
  obtain ⟨o, hsorted, h⟩ := bind_eq_ok.1 h
  rcases o with _ | sorted
  · cases h
  · obtain ⟨c', hc', h⟩ := bind_eq_ok.1 h
    cases h
    obtain ⟨rfl, hvalues, hsuper, hparts⟩ :=
      sorted?_inherits hR.hereditary (fits_identifier.2 hundefined) hf hsorted
    obtain ⟨old, hold⟩ := sorted?_statements hsorted
    exact sorted.finish_fits hR hname hvalues hsuper hparts
      (fun hshaped => hhygienic hshaped sorted hsorted) hold hc'

/-! ## Vocabularies -/

variable {V : Vocabulary}

/-- The statements in place of a factory have its names, the name of the class
    and `undefined`. -/
theorem statements_speak {d : Node} (hd : d.Speaks V true) (hundefined : V.name "undefined")
    (hf : ofDeclarator? d = .ok (some f)) {className : Text}
    (hname : className = f.className ∨ V.name className) {c : RebuiltClass}
    (hc : f.rebuild className = .ok (some c)) {kind : VariableKind} {statements : List Node}
    (h : f.toStatements kind className c = some statements) :
    ∀ s ∈ statements, s.Speaks V true := by
  have hR := ruleOf_simple V
  have hfits := ofDeclarator?_inherits hR.hereditary hf (speaks_iff_fits.1 hd)
  have hname : (ruleOf V).used className = true := by
    rcases hname with rfl | hname
    · exact fits_identifier.1 hfits.className
    · exact used_ruleOf.2 hname
  have hcfits := rebuild_fits hR (used_ruleOf.2 hundefined) hfits hname hc nofun
  exact fun s hs =>
    speaks_iff_fits.2 (toStatements_inherit hR.hereditary hfits
      (fits_identifier.2 hname) hcfits h s hs)

end Factory

end Resugar
