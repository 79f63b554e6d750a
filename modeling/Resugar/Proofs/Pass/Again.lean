import Resugar.Proofs.Pass.Sightings

/-!
# A second pass

Beside a class, a pass leaves the other declarators of the declaration as they
are, and another pass takes them up. This module says what else another pass may
take up (`Outcome.LeavesOver`). A declarator that the first pass looked at and
left is left again, unless

* it stood beside a class, or a class brought it along;
* it changed since, by new names or as the second pass rebuilt what stands in
  it;
* it stood where only one statement can, and now more can, or there are more or
  fewer declarators beside it;
* there is another helper, by which it loads a module.

What is taken up are those of them that can be rebuilt where they stand
(`Surroundings.rebuilds`). Each of the reasons has a program where it holds
(`rebuiltAgain`).
-/

namespace Resugar

/-- Whether a pass rebuilds a declarator. -/
def Verdict.isRebuilt (v : Verdict) : Bool :=
  v.isClass || v.isImport

namespace Surroundings

/-- Whether a declarator can be rebuilt there, as a class or an import. -/
def rebuilds (e : Surroundings) (inList alone : Bool) (d : Node) : Bool :=
  e.isClass inList alone d || e.isImport inList alone d

/-- A declarator is rebuilt if and only if it can be. -/
theorem Judges.isRebuilt_eq {e : Surroundings} {d : Node} {inList alone : Bool} {v : Verdict}
    (h : e.Judges d inList alone v) : v.isRebuilt = e.rebuilds inList alone d := by
  unfold rebuilds
  cases h with
  | rebuilt hclass => rw [hclass, Bool.true_or]; rfl
  | loaded himport => rw [himport, Bool.or_true]; rfl
  | kept hclass himport => rw [hclass, himport]; rfl

end Surroundings

/-! ## The same declarator -/

/-- What is different when a pass rebuilds a declarator that an earlier one
    kept: `y` is the note of the earlier pass, `n` what it left, and `x` the
    note of the later one. -/
inductive Sighting.Differs (e e' : Surroundings) (n : Node) (y x : Sighting) : Prop
  /-- The earlier pass gave new names to variables in it. -/
  | renamed (h : n ≠ y.declarator)
  /-- The later pass has rebuilt something in it. -/
  | below (h : x.declarator ≠ n)
  /-- It stood where only one statement can. Now more can, or it is alone and
      was not, or it was alone and is not. -/
  | placed (hy : y.inList = false) (h : x.inList = true ∨ x.alone ≠ y.alone)
  /-- A function that it calls is a helper now. -/
  | helped {binding : Text} {init : Node}
    (hd : x.declarator = .declarator (.identifier binding) (some init))
    (h : Resugar.load? e.config.loaders e.helpers init = none)
    (h' : (Resugar.load? e'.config.loaders e'.helpers init).isSome = true)

namespace Surroundings

variable {e e' : Surroundings} {y x : Sighting}

theorem isImport_eq_true {inList alone : Bool} {d : Node} (h : e.isImport inList alone d = true) :
    ∃ binding init, d = .declarator (.identifier binding) (some init) := by
  unfold isImport at h
  split at h
  · exact ⟨_, _, rfl⟩
  · cases h

/-- A declarator that became no import becomes one only in another place, or by
    another helper. -/
theorem differs_of_isImport (himports : e'.config.imports = e.config.imports)
    (hy : e.isImport y.inList y.alone x.declarator = false)
    (hx : e'.isImport x.inList x.alone x.declarator = true) :
    Sighting.Differs e e' x.declarator y x := by
  obtain ⟨binding, init, hd⟩ := isImport_eq_true hx
  rw [hd] at hx hy
  simp only [isImport, Bool.and_eq_true] at hx
  -- it was no load, or it was one and the import could not take its place
  rcases hload : load? e.config.loaders e.helpers init with _ | ⟨source, kind⟩
  · exact .helped hd hload hx.1.1
  · have hplace : (y.inList || !y.alone) = false := by
      simpa [isImport, hload, ← himports, hx.1.2] using hy
    simp only [Bool.or_eq_false_iff, Bool.not_eq_false'] at hplace
    refine .placed hplace.1 ?_
    have hx := hx.2
    rw [hplace.2]
    cases hinList : x.inList <;> cases halone : x.alone <;> simp_all

/-- A declarator that became no class becomes one only in another place. -/
theorem differs_of_isClass (hclasses : e'.config.classes = e.config.classes)
    (hy : e.isClass y.inList y.alone x.declarator = false)
    (hx : e'.isClass x.inList x.alone x.declarator = true) :
    Sighting.Differs e e' x.declarator y x := by
  rw [isClass, Bool.and_eq_true, Option.any_eq_true] at hx
  obtain ⟨hon, f, hf, hx⟩ := hx
  obtain ⟨count, hcount, hx⟩ := (Option.any_eq_true _ _).1 hx
  rw [isClass, ← hclasses, hon, hf, Bool.true_and, Option.any_some, hcount, Option.any_some,
    Bool.or_eq_false_iff] at hy
  -- as many statements stand for the class, so it is the place that differs
  refine .placed hy.1 ?_
  cases hinList : x.inList <;> cases halone : x.alone <;> simp_all

/-- A pass that rebuilds what an earlier one kept finds a difference. -/
theorem differs_of_judges (hclasses : e'.config.classes = e.config.classes)
    (himports : e'.config.imports = e.config.imports) (hkept : y.verdict = .kept)
    (hy : e.Judges y.declarator y.inList y.alone y.verdict)
    (hx : e'.rebuilds x.inList x.alone x.declarator = true) (n : Node) :
    Sighting.Differs e e' n y x := by
  by_cases hn : n = y.declarator
  · by_cases hbelow : x.declarator = n
    · subst hn
      rw [← hbelow] at hy ⊢
      rw [hkept] at hy
      obtain _ | _ | ⟨hclass, himport⟩ := hy
      rcases Bool.or_eq_true_iff.1 hx with hx | hx
      · exact differs_of_isClass hclasses hclass hx
      · exact differs_of_isImport himports himport hx
    · exact .below hbelow
  · exact .renamed hn

end Surroundings

/-! ## What a second pass takes up -/

namespace Outcome

variable {o o' : Outcome}

/-- Why a pass may rebuild a declarator left as `n`, and noted as `d`. -/
inductive Reopens (o o' : Outcome) (d n : Node) (x : Sighting) : Prop
  /-- It stood beside a class. -/
  | beside {y : Sighting} (hy : y ∈ o.state.seen) (hd : y.declarator = d) (h : y.verdict = .skipped)
  /-- A class brought it along. -/
  | brought {y : Sighting} {f : Factory} {name : Text} {ss : List Node} {t : Node}
    (hy : y ∈ o.state.seen) (h : y.verdict = .rebuilt f name ss) (ht : t ∈ ss) (hd : d ∈ t.walk)
  /-- It was kept, but something is different. -/
  | changed {y : Sighting} (hy : y ∈ o.state.seen) (hd : y.declarator = d)
    (hkept : y.verdict = .kept) (h : Sighting.Differs o.surroundings o'.surroundings n y x)

/-- A note of a pass about a declarator that an earlier one left over. -/
def LeavesOver (o o' : Outcome) (x : Sighting) : Prop :=
  ∃ d n, o.program.HasDeclarator n ∧ o.Carries d n ∧
    Visit.Leaves o'.surroundings n x.declarator ∧ o.Reopens o' d n x

/-- All that a pass rebuilds was left over by the one before. -/
theorem leavesOver_of_isRebuilt {config : Config} {program : Node}
    (h : reconstruct config program = .ok o) (h' : reconstruct config o.program = .ok o')
    {x : Sighting} (hx : x ∈ o'.state.seen) (hrebuilt : x.verdict.isRebuilt = true) :
    o.LeavesOver o' x := by
  obtain ⟨body, hran⟩ := reconstruct_ran h
  obtain ⟨body', hran'⟩ := reconstruct_ran h'
  have hconfig := reconstruct_config h
  have hconfig' := reconstruct_config h'
  have hmet := hran'.recorded.met x hx
  -- what the second pass rebuilds is a declarator of the program that it was
  -- given, and the first pass has noted it
  obtain ⟨n, hn, hleaves, hjudges'⟩ := hmet.resolve_left fun hskipped => by
    rw [hskipped] at hrebuilt
    cases hrebuilt
  rw [hjudges'.isRebuilt_eq] at hrebuilt
  obtain ⟨d, hnotes, hcarries⟩ := hran.carried hn
  refine ⟨d, n, hn, hcarries, hleaves, ?_⟩
  cases hnotes with
  | brought hy h ht hd => exact .brought hy h ht hd
  | @stays y hy hd h =>
    rcases h with hkept | hskipped
    · have hmet := hran.recorded.met y hy
      obtain ⟨m, -, -, hjudges⟩ := hmet.resolve_left fun hskipped =>
        nomatch hkept.symm.trans hskipped
      refine .changed hy hd hkept (Surroundings.differs_of_judges ?_ ?_ hkept hjudges hrebuilt n)
      · rw [hconfig, hconfig']
      · rw [hconfig, hconfig']
    · exact .beside hy hd hskipped

end Outcome

namespace Outcome.Ran

variable {o : Outcome} {program : Node} {body : List Node}

/-- A pass rebuilds no class and no import if and only if it notes none. -/
theorem idle_iff (h : o.Ran program body) :
    o.state.tally.classes = 0 ∧ o.state.tally.imports = 0 ↔
      ∀ x ∈ o.state.seen, x.verdict.isRebuilt = false := by
  rw [h.recorded.classes, h.recorded.imports, List.countP_eq_zero, List.countP_eq_zero,
    ← forall₂_and]
  simp [Verdict.isRebuilt]

/-- A declarator is rebuilt if it can be, unless it stands beside a class. -/
theorem isRebuilt_iff (h : o.Ran program body) {x : Sighting} (hx : x ∈ o.state.seen) :
    x.verdict.isRebuilt = true ↔
      x.verdict ≠ .skipped ∧ o.surroundings.rebuilds x.inList x.alone x.declarator = true := by
  rcases h.recorded.met x hx with hskipped | ⟨-, -, -, hjudges⟩
  · rw [hskipped]
    exact ⟨nofun, fun h => absurd rfl h.1⟩
  · rw [← hjudges.isRebuilt_eq]
    refine ⟨fun hrebuilt => ⟨fun hskipped => ?_, hrebuilt⟩, And.right⟩
    rw [hskipped] at hrebuilt
    cases hrebuilt

/-- A pass that makes no class passes no declarator over. -/
theorem not_skipped_of_idle (h : o.Ran program body)
    (hidle : ∀ x ∈ o.state.seen, x.verdict.isRebuilt = false) {x : Sighting}
    (hx : x ∈ o.state.seen) : x.verdict ≠ .skipped := by
  intro hskipped
  obtain ⟨y, hy, hclass⟩ := h.recorded.skipped x hx hskipped
  have hkept := hidle y hy
  rw [Verdict.isRebuilt, hclass] at hkept
  cases hkept

end Outcome.Ran

/-- A second pass with the same settings rebuilds the declarators that the first
    one left over and that can be rebuilt where they stand, unless they stand
    beside a class again. So it makes no class and no import if and only if none
    of what was left over can be rebuilt. -/
theorem idle_again_iff {config : Config} {program : Node} {o o' : Outcome}
    (h : reconstruct config program = .ok o) (h' : reconstruct config o.program = .ok o') :
    (∀ x ∈ o'.state.seen, x.verdict.isRebuilt = true ↔
        x.verdict ≠ .skipped ∧ o.LeavesOver o' x ∧
          o'.surroundings.rebuilds x.inList x.alone x.declarator = true) ∧
      (o'.state.tally.classes = 0 ∧ o'.state.tally.imports = 0 ↔
        ∀ x ∈ o'.state.seen, o.LeavesOver o' x →
          o'.surroundings.rebuilds x.inList x.alone x.declarator = false) := by
  obtain ⟨body, hran⟩ := reconstruct_ran h'
  refine ⟨fun x hx => ⟨fun hrebuilt => ?_, fun ⟨hskipped, _, hrebuilds⟩ => ?_⟩, ?_⟩
  · obtain ⟨hskipped, hrebuilds⟩ := (hran.isRebuilt_iff hx).1 hrebuilt
    exact ⟨hskipped, Outcome.leavesOver_of_isRebuilt h h' hx hrebuilt, hrebuilds⟩
  · exact (hran.isRebuilt_iff hx).2 ⟨hskipped, hrebuilds⟩
  · rw [hran.idle_iff]
    refine ⟨fun hidle x hx _ => ?_, fun hnone x hx => ?_⟩
    · -- a declarator that could be rebuilt stands beside a class, and there is none
      by_contra hrebuilds
      have hrebuilt := (hran.isRebuilt_iff hx).2
        ⟨hran.not_skipped_of_idle hidle hx, Bool.not_eq_false _ ▸ hrebuilds⟩
      rw [hidle x hx] at hrebuilt
      cases hrebuilt
    · by_contra hrebuilt
      have hrebuilt := Bool.not_eq_false _ ▸ hrebuilt
      have hrebuilds := ((hran.isRebuilt_iff hx).1 hrebuilt).2
      rw [hnone x hx (Outcome.leavesOver_of_isRebuilt h h' hx hrebuilt)] at hrebuilds
      cases hrebuilds

/-- A test that the outcomes of two passes satisfy. -/
theorem exists_outcomes {program : Node} {P : Outcome → Outcome → Prop} [∀ o o', Decidable (P o o')]
    (h : (reconstruct {} program).toOption.any
      (fun o => (reconstruct {} o.program).toOption.any fun o' => decide (P o o')) = true) :
    ∃ o o', reconstruct {} program = .ok o ∧ reconstruct {} o.program = .ok o' ∧ P o o' := by
  obtain ⟨o, ho, h⟩ : ∃ o, reconstruct {} program = .ok o ∧
      ((reconstruct {} o.program).toOption.any fun o' => decide (P o o')) = true := by
    refine exists_outcome ?_
    simpa only [Bool.decide_eq_true] using h
  obtain ⟨o', ho', hP⟩ := exists_outcome h
  exact ⟨o, o', ho, ho', hP⟩

/-- `function () { function name() {} var _proto = name.prototype; return name;
    }()` -/
def emptyClass (name : Text) : Node :=
  calledAtOnce [] [namedFunction name [], prototypeOf name,
    .returnStmt (some (.identifier name))] []

/-- `var A = …, x = value;` where `A` holds a class. -/
def besideClass (x : Text) (value : Node) : Node :=
  .varDecl .var [.declarator (.identifier "A") (some (emptyClass "A")),
    .declarator (.identifier x) (some value)]

/-- `var A = …, B = …;` where both hold a class. -/
def twoClasses : Node :=
  .program [besideClass "B" (emptyClass "B")]

/-- A variable beside a class is left over and stays, and another class is left
    over and rebuilt. -/
theorem idle_again_iff_besideClass :
    (∃ o o',
      reconstruct {} (.program [besideClass "b" (.identifier "c"), loading "m" "m"]) = .ok o ∧
        reconstruct {} o.program = .ok o' ∧
        o.state.tally.classes = 1 ∧ o.state.tally.imports = 1 ∧ o'.state.seen.length = 1 ∧
        o'.state.tally.classes = 0 ∧ o'.state.tally.imports = 0) ∧
      ∃ o o', reconstruct {} twoClasses = .ok o ∧ reconstruct {} o.program = .ok o' ∧
        ∃ x ∈ o'.state.seen, o.LeavesOver o' x ∧
          o'.surroundings.rebuilds x.inList x.alone x.declarator = true := by
  constructor
  · let P (o o' : Outcome) : Prop := o.state.tally.classes = 1 ∧ o.state.tally.imports = 1 ∧
      o'.state.seen.length = 1 ∧
        ∀ x ∈ o'.state.seen, o'.surroundings.rebuilds x.inList x.alone x.declarator = false
    obtain ⟨o, o', ho, ho', hclasses, himports, hseen, hnone⟩ : ∃ o o',
        reconstruct {} (.program [besideClass "b" (.identifier "c"), loading "m" "m"]) = .ok o ∧
        reconstruct {} o.program = .ok o' ∧ P o o' := exists_outcomes (by decide +kernel)
    exact ⟨o, o', ho, ho', hclasses, himports, hseen,
      (idle_again_iff ho ho').2.2 fun x hx _ => hnone x hx⟩
  · let P (_ o' : Outcome) : Prop := ∃ x ∈ o'.state.seen, x.verdict.isRebuilt = true
    obtain ⟨o, o', ho, ho', x, hx, hrebuilt⟩ : ∃ o o', reconstruct {} twoClasses = .ok o ∧
        reconstruct {} o.program = .ok o' ∧ P o o' := exists_outcomes (by decide +kernel)
    exact ⟨o, o', ho, ho', x, hx, (((idle_again_iff ho ho').1 x hx).1 hrebuilt).2⟩

/-- `require("source")` -/
def requiring (source : Text) : Node :=
  .call (.identifier "require") [.literal (.string source) none] false

/-- `(0, n)` -/
def indirect (n : Node) : Node :=
  .parenthesized (.sequence [.literal (.number (.integer 0)) (some "0"), n])

/-- Programs that a second pass rebuilds, for the other reasons. -/
def rebuiltAgain : List Node :=
  [ -- `var A = function (load) { function A() {} var _proto = A.prototype;
    -- var b = load("b"); return A; }(require);`
    .program [declaring "A" (calledAtOnce ["load"] [namedFunction "A" [], prototypeOf "A",
      declaring "b" (.call (.identifier "load") [.literal (.string "b") none] false),
      .returnStmt (some (.identifier "A"))] [.identifier "require"])],
    -- `var K = function () { function _Dog() {} var _proto = _Dog.prototype;
    -- return _Dog.default; }();` `var _Dog = require("dog");`
    .program [declaring "K" (calledAtOnce [] [namedFunction "_Dog" [], prototypeOf "_Dog",
        .returnStmt (some (.member (.identifier "_Dog") (.identifier "default") false false))] []),
      loading "_Dog" "dog"],
    -- `var b = (0, (0, require))("b");`
    .program [declaring "b" (.call (indirect (indirect (.identifier "require")))
      [.literal (.string "b") none] false)],
    -- `for (var A = …, b = require("b");;) {}`
    .program [.forStmt (some (besideClass "b" (requiring "b"))) none none (.block [])],
    -- `function h(e) { var x = require("x");
    -- return e && e.__esModule ? e : { default: e }; } var a = h(require("a"));`
    .program [.functionDecl (some (.identifier "h")) [.identifier "e"] (.block [loading "x" "x",
        .returnStmt (some (.conditional (.logical "&&" (.identifier "e")
          (.member (.identifier "e") (.identifier "__esModule") false false)) (.identifier "e")
          (.object [.entry (.identifier "default") (.identifier "e") .init false false false])))])
        false false,
      declaring "a" (.call (.identifier "h") [requiring "a"] false)]]

/-- `function () { function B() x var _proto = B.prototype; return B; }()`,
    where the body of `B` is no block. -/
def brokenClass : Node :=
  calledAtOnce [] [.functionDecl (some (.identifier "B")) [] (.identifier "x") false false,
    prototypeOf "B", .returnStmt (some (.identifier "B"))] []

/-- A second pass may rebuild what the first one left, for each of the reasons,
    and it may fail where that did not. -/
theorem twoClasses_not_idle_again :
    (∃ o o', reconstruct {} twoClasses = .ok o ∧ reconstruct {} o.program = .ok o' ∧
      o.state.tally.classes = 1 ∧ o'.state.tally.classes = 1) ∧
      (∀ program ∈ rebuiltAgain,
        ∃ o o', reconstruct {} program = .ok o ∧ reconstruct {} o.program = .ok o' ∧
          o'.state.tally.classes + o'.state.tally.imports = 1) ∧
      ∃ o, reconstruct {} (.program [besideClass "B" brokenClass]) = .ok o ∧
        (reconstruct {} o.program).toOption.isNone = true := by
  refine ⟨exists_outcomes (by decide +kernel), ?_, exists_outcome (by decide +kernel)⟩
  simp only [rebuiltAgain, List.forall_mem_cons, List.not_mem_nil,
    false_imp_iff, implies_true, and_true]
  refine ⟨?_, ?_, ?_, ?_, ?_⟩ <;> exact exists_outcomes (by decide +kernel)

end Resugar
