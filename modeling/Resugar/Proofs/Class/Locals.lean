import Mathlib.Data.List.Nodup
import Mathlib.Logic.Function.Basic
import Resugar.Proofs.Class.Scope

/-!
# Locals of a method

A local variable of a compiled method may hold `this`, or a property of it. It
can be looked through as long as nothing writes it again. Which variables are
written is found out by looking for assignments and updates of the variable
itself (`Node.isReassigned`). A variable is also written where it stands in
parentheses or in a pattern, and where it is the head of a loop
(`Node.WritesTo`); such writes are not seen.

Looking through a variable which holds a property of `this` does not change the
value of any variable, whatever the expressions mean (`Meaning`).
-/

namespace Resugar

open List

namespace Node

/-! ## Writes -/

/-- A variable is a target of an assignment, or stands inside of one. -/
inductive Targets (x : Text) : Node → Prop
  | name : Targets x (identifier x)
  | grouped {e : Node} (h : Targets x e) : Targets x (parenthesized e)
  | objectPattern {entries : List Node} {e : Node} (he : e ∈ entries) (h : Targets x e) :
    Targets x (objectPattern entries)
  | entry {key value : Node} {kind : EntryKind}
    {computed shorthand isMethod : Bool} (h : Targets x value) :
    Targets x (entry key value kind computed shorthand isMethod)
  | arrayPattern {elements : List (Option Node)} {e : Node}
    (he : some e ∈ elements) (h : Targets x e) : Targets x (arrayPattern elements)
  | defaultPattern {left right : Node} (h : Targets x left) : Targets x (defaultPattern left right)
  | restPattern {argument : Node} (h : Targets x argument) : Targets x (restPattern argument)

/-- A node writes a variable. A loop does, unless it declares the variable. -/
inductive WritesTo (x : Text) : Node → Prop
  | assignment {operator : Text} {left right : Node} (h : Targets x left) :
    WritesTo x (assignment operator left right)
  | update {operator : Text} {argument : Node} {leading : Bool}
    (h : argument.ungroup = identifier x) : WritesTo x (update operator argument leading)
  | loop {left right body : Node} {isOf isAwait : Bool} (h : Targets x left) :
    WritesTo x (forInStmt left right body isOf isAwait)

/-- A node assigns to a variable itself, or updates it. -/
inductive WritesOutright (x : Text) : Node → Prop
  | assignment (operator : Text) (right : Node) :
    WritesOutright x (assignment operator (identifier x) right)
  | update (operator : Text) (leading : Bool) :
    WritesOutright x (update operator (identifier x) leading)

/-- A node writes a variable in any other way: in parentheses, in a pattern, or
    as the head of a loop. -/
inductive HidesWrite (x : Text) : Node → Prop
  | assignment {operator : Text} {left right : Node}
    (hleft : left ≠ identifier x) (h : Targets x left) :
    HidesWrite x (assignment operator left right)
  | update {operator : Text} {argument : Node} {leading : Bool}
    (hargument : argument ≠ identifier x) (h : argument.ungroup = identifier x) :
    HidesWrite x (update operator argument leading)
  | loop {left right body : Node} {isOf isAwait : Bool} (h : Targets x left) :
    HidesWrite x (forInStmt left right body isOf isAwait)

variable {x : Text} {n : Node} {body : List Node}

theorem writes_iff : n.writes x = true ↔ n.WritesOutright x := by
  constructor
  · intro h
    unfold writes at h
    split at h
    · obtain rfl := isNamed_iff.1 h
      exact .assignment ..
    · obtain rfl := isNamed_iff.1 h
      exact .update ..
    · cases h
  · intro h
    cases h <;> exact isNamed_iff.2 rfl

theorem isReassigned_iff :
    isReassigned body x = true ↔ ∃ s ∈ body, ∃ n ∈ s.walk, n.WritesOutright x := by
  simp only [isReassigned, any_eq_true, writes_iff]

/-- Every write of a variable is in sight, or it is hidden. -/
theorem writesTo_iff : n.WritesTo x ↔ n.WritesOutright x ∨ n.HidesWrite x := by
  constructor
  · intro h
    cases h with
    | @assignment operator left right h =>
      by_cases hleft : left = identifier x
      · exact .inl (hleft ▸ .assignment ..)
      · exact .inr (.assignment hleft h)
    | @update operator argument leading h =>
      by_cases hargument : argument = identifier x
      · exact .inl (hargument ▸ .update ..)
      · exact .inr (.update hargument h)
    | loop h => exact .inr (.loop h)
  · rintro (h | h)
    · cases h with
      | assignment => exact .assignment .name
      | update => exact .update rfl
    · cases h with
      | assignment _ h => exact .assignment h
      | update _ h => exact .update h
      | loop h => exact .loop h

end Node

open Node

/-- A variable that is not found to be written is not written, exactly if hidden
    writes of it come with one that is not hidden. -/
theorem reassignment_seen_iff (body : List Node) (x : Text) :
    (isReassigned body x = false → ∀ s ∈ body, ∀ n ∈ s.walk, ¬n.WritesTo x) ↔
      ((∃ s ∈ body, ∃ n ∈ s.walk, n.HidesWrite x) →
        ∃ s ∈ body, ∃ n ∈ s.walk, n.WritesOutright x) := by
  rw [← isReassigned_iff]
  constructor
  · rintro hseen ⟨s, hs, n, hn, hhidden⟩
    by_contra hfalse
    exact hseen (Bool.not_eq_true _ ▸ hfalse) s hs n hn (writesTo_iff.2 (.inr hhidden))
  · intro hboth hfalse s hs n hn hwrites
    refine Bool.eq_false_iff.1 hfalse ?_
    rcases writesTo_iff.1 hwrites with houtright | hhidden
    · exact isReassigned_iff.2 ⟨s, hs, n, hn, houtright⟩
    · exact hboth ⟨s, hs, n, hn, hhidden⟩

/-- `[_A] = cats` -/
def isSwap : Node → Bool
  | .assignment _ (.arrayPattern [some (.identifier x)]) _ => x == Text.ofString "_A"
  | _ => false

/-- A factory with a method that writes the parameter of the factory:
    `[_A] = cats; return _A;`. -/
def swappingDog : Node :=
  let swap := Node.functionExpr none [] (.block
    [.exprStmt (.assignment "=" (.arrayPattern [some (.identifier "_A")]) (.identifier "cats")),
      .returnStmt (some (.identifier "_A"))]) false false
  dogDeclarator [] [] [] [.exprStmt
    (.assignment "=" (.member (.identifier "_proto") (.identifier "swap") false false)
      swap)] [.identifier "Animal"]

/-- A parameter that is written by a pattern is not found to be written: the
    method becomes `[Animal] = cats; return Animal;`. -/
theorem reassignment_unseen :
    ∃ f c, Factory.ofDeclarator? swappingDog = .ok (some f) ∧
      f.rebuild f.className = .ok (some c) ∧ isReassigned f.statements "_A" = false ∧
      ∃ s ∈ f.statements, ∃ n ∈ s.walk, n.WritesTo "_A" := by
  obtain ⟨f, c, hf, hc, hname, hunseen, s, hs, hswap⟩ :
      ∃ f c, Factory.ofDeclarator? swappingDog = .ok (some f) ∧ f.rebuild "Dog" = .ok (some c) ∧
        f.className = Text.ofString "Dog" ∧ isReassigned f.statements "_A" = false ∧
        ∃ s ∈ f.statements, s.walk.any isSwap = true :=
    exists_rebuilt (by decide +kernel)
  obtain ⟨n, hn, hswap⟩ := any_eq_true.1 hswap
  refine ⟨f, c, hf, hname ▸ hc, hunseen, s, hs, n, hn, ?_⟩
  unfold isSwap at hswap
  split at hswap
  · obtain rfl := beq_iff_eq.1 hswap
    exact .assignment (.arrayPattern mem_cons_self .name)
  · cases hswap

/-! ## Variables that hold a property of `this` -/

namespace Node

/-- That of which the declarator of a variable reads a property. -/
def readFrom? : Node → Option Node
  | declarator (identifier _) (some init) => init.ungroup.receiver?.map ungroup
  | _ => none

/-- What becomes of a declarator and of the table of held properties. -/
inductive Resolution (reassigned : Text → Bool) (held : Table Node) :
    Node → Node → Table Node → Prop
  /-- The variable holds a property of `this` from now on. -/
  | holds {x : Text} {init receiver property : Node} {computed o : Bool}
    (hinit : init.ungroup = member receiver property computed o)
    (hreceiver : receiver.ungroup = thisExpr) :
    Resolution reassigned held (declarator (identifier x) (some init))
      (declarator (identifier x) (some init))
      (held.insert x (member receiver property computed o))
  /-- The initializer reads a property of what another variable holds. -/
  | through {x holder : Text} {init receiver property place : Node} {computed o : Bool}
    (hinit : init.ungroup = member receiver property computed o)
    (hreceiver : receiver.ungroup = identifier holder)
    (hplace : held.get? holder = some place) :
    Resolution reassigned held (declarator (identifier x) (some init))
      (declarator (identifier x) (some (member place property computed o)))
      (held.insert x (member place property computed o))
  | kept {d : Node} (hthis : d.readFrom? ≠ some thisExpr)
    (hread : ∀ x, d.readFrom? = some (identifier x) → held.has x = true → reassigned x = true) :
    Resolution reassigned held d d held

variable {x : Text}

/-- A declarator with a member as its value reads from the receiver. -/
theorem readFrom?_of_member {init receiver property : Node} {computed o : Bool}
    (hinit : init.ungroup = member receiver property computed o) :
    (declarator (identifier x) (some init)).readFrom? = some receiver.ungroup := by
  rw [readFrom?, hinit]
  rfl

/-- What can become of a declarator: a property of `this` is held, a property of
    what another variable holds is read from there, and all else stays. A
    variable that is written again is not looked through. -/
theorem resolveDeclarator_cases (reassigned : Text → Bool) (held : Table Node) (d : Node) :
    Resolution reassigned held d (resolveDeclarator reassigned held d).1
      (resolveDeclarator reassigned held d).2 := by
  unfold resolveDeclarator
  split
  · rename_i x init
    split
    · rename_i receiver property computed o hinit
      have hfrom := readFrom?_of_member (x := x) hinit
      split
      · rename_i hreceiver
        exact .holds hinit hreceiver
      · rename_i holder hreceiver
        rw [hreceiver] at hfrom
        split
        · rename_i place hplace
          split
          · rename_i hreassigned
            -- a variable that is written again need not hold the member any more
            refine .kept (by simp [hfrom]) fun y hy _ => ?_
            cases hfrom.symm.trans hy
            exact hreassigned
          · exact .through hinit hreceiver hplace
        · rename_i hnone
          -- a variable that holds no member of `this`
          refine .kept (by simp [hfrom]) fun y hy hheld => ?_
          cases hfrom.symm.trans hy
          rw [Table.has, hnone] at hheld
          cases hheld
      · rename_i hthis hname
        exact .kept (fun h => hthis (Option.some.inj (hfrom.symm.trans h))) fun y hy =>
          absurd (Option.some.inj (hfrom.symm.trans hy)) (hname y)
    · rename_i hmember
      have hnone : (declarator (identifier x) (some init)).readFrom? = none := by
        unfold readFrom? receiver?
        dsimp only
        split
        · exact absurd ‹_› (hmember _ _ _ _)
        · rfl
      exact .kept (by simp [hnone]) (by simp [hnone])
  · rename_i hd
    have hnone : d.readFrom? = none := by
      unfold readFrom?
      split
      · exact absurd rfl (hd _ _)
      · rfl
    exact .kept (by simp [hnone]) (by simp [hnone])

theorem resolveDeclarators_cons {reassigned : Text → Bool} {held : Table Node} (d : Node)
    (ds : List Node) : resolveDeclarators reassigned held
    (d :: ds) = ((resolveDeclarator reassigned held d).1 ::
      (resolveDeclarators reassigned (resolveDeclarator reassigned held d).2 ds).1,
      (resolveDeclarators reassigned (resolveDeclarator reassigned held d).2 ds).2) := rfl

/-- Declarators are resolved one after the other, the table passed on. -/
theorem resolveDeclarators_append {reassigned : Text → Bool}
    {held : Table Node} (ds es : List Node) :
    resolveDeclarators reassigned held (ds ++ es) =
      ((resolveDeclarators reassigned held ds).1 ++
        (resolveDeclarators reassigned (resolveDeclarators reassigned held ds).2 es).1,
        (resolveDeclarators reassigned (resolveDeclarators reassigned held ds).2 es).2) := by
  induction ds generalizing held with
  | nil => rfl
  | cons d ds ih =>
    rw [cons_append, resolveDeclarators_cons, resolveDeclarators_cons, ih]
    rfl

/-- The declarators of all declarations are resolved in one go. -/
theorem flatMap_resolveStatements (reassigned : Text → Bool)
    (held : Table Node) (body : List Node) :
    (resolveStatements reassigned held body).flatMap declarators =
      (resolveDeclarators reassigned held (body.flatMap declarators)).1 := by
  fun_induction resolveStatements reassigned held body with
  | case1 held => rfl
  | case2 held kind ds rest ds' held' hds ih =>
    rw [flatMap_cons, flatMap_cons, ih]
    show ds' ++ _ = (resolveDeclarators reassigned held (ds ++ _)).1
    rw [resolveDeclarators_append, hds]
  | case3 held s rest hs ih =>
    have hnone : s.declarators = [] := by
      unfold declarators
      split
      · exact absurd rfl (hs _ _)
      · rfl
    rw [flatMap_cons, flatMap_cons, hnone, ih]
    rfl

/-! ### What is left to look through -/

/-- None of some declarators reads a property of a variable to which an earlier
    one gave a property of `this`, unless the variable is written again. -/
def Settled (reassigned : Text → Bool) (ds : List Node) : Prop :=
  ds.Pairwise fun d d' => ∀ x, d.declaredName? = some x → d.readFrom? = some thisExpr →
    d'.readFrom? = some (identifier x) → reassigned x = true

theorem has_insert {held : Table Node} {y : Text} {place : Node} :
    (held.insert x place).has y = true ↔ y = x ∨ held.has y = true := by
  rw [Table.has, Table.get?_insert]
  split <;> simp_all [Table.has]

/-- A table of held properties holds members only. -/
def HoldsMembers (held : Table Node) : Prop :=
  ∀ x place, held.get? x = some place →
    ∃ receiver property computed o, place = member receiver property computed o

/-- A member may be added to what a table holds. -/
theorem HoldsMembers.insert {held : Table Node} (h : HoldsMembers held) {receiver property : Node}
    {computed o : Bool} : HoldsMembers (held.insert x (member receiver property computed o)) := by
  intro y place hy
  rw [Table.get?_insert] at hy
  split at hy
  · cases hy
    exact ⟨receiver, property, computed, o, rfl⟩
  · exact h y place hy

variable {reassigned : Text → Bool} {held held' : Table Node} {d d' : Node}

namespace Resolution

/-- Only members are ever held. -/
theorem holdsMembers (h : Resolution reassigned held d d' held') (hheld : HoldsMembers held) :
    HoldsMembers held' := by
  cases h with
  | holds => exact hheld.insert
  | through => exact hheld.insert
  | kept => exact hheld

variable {x : Text}

/-- What is held stays held. -/
theorem has_mono (h : Resolution reassigned held d d' held') (hx : held.has x = true) :
    held'.has x = true := by
  cases h with
  | holds | through => exact has_insert.2 (.inr hx)
  | kept => exact hx

/-- A variable that holds a property of `this` is in the table. -/
theorem has_of_this (h : Resolution reassigned held d d' held') (hname : d'.declaredName? = some x)
    (hthis : d'.readFrom? = some thisExpr) : held'.has x = true := by
  cases h with
  | holds | through => exact has_insert.2 (.inl (Option.some.inj hname).symm)
  | kept hne => exact absurd hthis hne

/-- Variables in the table are looked through, unless they are written again. -/
theorem reassigned_of_has (h : Resolution reassigned held d d' held') (hheld : HoldsMembers held)
    (hread : d'.readFrom? = some (identifier x)) (hx : held.has x = true) :
    reassigned x = true := by
  cases h with
  | holds hinit hreceiver =>
    rw [readFrom?_of_member hinit, hreceiver] at hread
    cases hread
  | through hinit hreceiver hplace =>
    obtain ⟨receiver, property, computed, o, rfl⟩ := hheld _ _ hplace
    cases hread
  | kept hne hall => exact hall x hread hx

end Resolution

/-- No declarator reads a property of a held variable afterwards, unless the
    variable is written again. -/
theorem resolveDeclarators_settled (hheld : HoldsMembers held) (ds : List Node) :
    (∀ d ∈ (resolveDeclarators reassigned held ds).1, ∀ x, d.readFrom? = some (identifier x) →
      held.has x = true → reassigned x = true) ∧
      Settled reassigned (resolveDeclarators reassigned held ds).1 := by
  induction ds generalizing held with
  | nil => exact ⟨forall_mem_nil _, .nil⟩
  | cons d ds ih =>
    have hd := resolveDeclarator_cases reassigned held d
    -- no later declarator reads from the table that the first one leaves, and
    -- that table has all that `held` has
    obtain ⟨hlater, hpairs⟩ := ih (hd.holdsMembers hheld)
    rw [resolveDeclarators_cons]
    refine ⟨forall_mem_cons.2
      ⟨fun x hread hx => hd.reassigned_of_has hheld hread hx, ?_⟩, .cons ?_ hpairs⟩
    · exact fun d' hd' x hread hx => hlater d' hd' x hread (hd.has_mono hx)
    · exact fun d' hd' x hname hthis hread => hlater d' hd' x hread (hd.has_of_this hname hthis)

/-- When held properties are looked through, nothing is left to look through. -/
theorem resolveHeld_settled (body : List Node) :
    Settled (isReassigned body) ((resolveHeld body).flatMap declarators) := by
  rw [resolveHeld, flatMap_resolveStatements]
  exact (resolveDeclarators_settled (fun x place hx => by cases hx) _).2

end Node

/-! ## Values -/

namespace Node

/-- Not `a[b]` and not `a?.b`. -/
def isPlainAccess : Node → Bool
  | member _ _ computed o => !computed && !o
  | _ => true

/-- Declarations of different variables, whose initializers have no computed and
    no optional members. -/
structure PlainLocals (body : List Node) : Prop where
  declarations : ∀ s ∈ body, s.isVarDecl = true
  names : ∀ d ∈ body.flatMap declarators, d.declaredName?.isSome = true
  distinct : ((body.flatMap declarators).filterMap declaredName?).Nodup
  plain : ∀ d ∈ body.flatMap declarators, ∀ n ∈ d.walk, n.isPlainAccess = true

theorem ungroup_mem_walk_declarator (id init : Node) :
    init.ungroup ∈ (declarator id (some init)).walk := by
  have hinit : init ∈ (declarator id (some init)).children := by
    simp [children, Field.walkedNodes, Field.single, Slot.nodes]
  exact walk_subset_of_mem_walk (mem_walk_of_mem_children hinit) init.ungroup_mem_walk

end Node

/-- What expressions mean, for a fixed value of `this`: a property is a function
    of the value that has it, any other expression of the values of the
    variables. -/
structure Meaning (Value : Type) where
  thisValue : Value
  access : Value → (property : Node) → Value
  other : Node → (Text → Value) → Value

namespace Meaning

variable {Value : Type} (I : Meaning Value) {x : Text}

/-- The value of an expression. -/
def eval (env : Text → Value) : Node → Value
  | .parenthesized e => eval env e
  | .thisExpr => I.thisValue
  | .identifier x => env x
  | .member receiver property false false => I.access (eval env receiver) property
  | n => I.other n env

/-- The values of the variables after a declarator. -/
def declare (env : Text → Value) : Node → Text → Value
  | .declarator (.identifier x) (some init) => Function.update env x (I.eval env init)
  | _ => env

/-- The values of the variables after some declarations. -/
def run (env : Text → Value) (body : List Node) : Text → Value :=
  (body.flatMap declarators).foldl I.declare env

variable {I} {env : Text → Value} {declared : List Text} {held held' : Table Node} {d d' : Node}

theorem eval_thisExpr : I.eval env .thisExpr = I.thisValue := rfl

theorem eval_identifier : I.eval env (.identifier x) = env x := rfl

theorem eval_member {receiver property : Node} :
    I.eval env (.member receiver property false false) = I.access
      (I.eval env receiver) property := rfl

theorem eval_ungroup (n : Node) : I.eval env n.ungroup = I.eval env n := by
  fun_induction ungroup n with
  | case1 e ih => exact ih
  | case2 n => rfl

/-- The value of an initializer that reads a property, in parentheses or not. -/
theorem eval_of_member {init receiver property : Node}
    (h : init.ungroup = .member receiver property false false) :
    I.eval env init = I.access (I.eval env receiver.ungroup) property := by
  rw [← eval_ungroup init, h, eval_member, eval_ungroup]

/-- A table of held properties is right: its variables are declared, and have
    the values of what they hold, which no variable changes. -/
def Tracks (I : Meaning Value) (declared : List Text) (env : Text → Value) (held : Table Node) :
    Prop :=
  ∀ x place, held.get? x = some place → x ∈ declared ∧ ∀ env', I.eval env' place = env x

/-- A table stays right when another variable is declared. -/
theorem Tracks.declare (h : I.Tracks declared env held) (hx : x ∉ declared)
    (hname : d.declaredName? = some x) : I.Tracks (x :: declared) (I.declare env d) held := by
  intro y place hy
  obtain ⟨hdeclared, hplace⟩ := h y place hy
  have hne : y ≠ x := fun heq => hx (heq ▸ hdeclared)
  have hkept : I.declare env d y = env y := by
    unfold Meaning.declare
    split
    · cases hname
      exact Function.update_of_ne hne _ _
    · rfl
  rw [hkept]
  exact ⟨mem_cons_of_mem _ hdeclared, hplace⟩

/-- A table stays right when a variable is held at a place with its value. -/
theorem Tracks.hold (h : I.Tracks declared env held) (hx : x ∉ declared) {init place : Node}
    (hplace : ∀ env', I.eval env' place = I.eval env init) :
    I.Tracks (x :: declared) (I.declare env (.declarator (.identifier x) (some init)))
      (held.insert x place) := by
  intro y place' hy
  rw [Table.get?_insert] at hy
  split at hy
  · rename_i heq
    cases hy
    rw [heq, Meaning.declare, Function.update_self]
    exact ⟨mem_cons_self, hplace⟩
  · exact h.declare hx rfl y place' hy

/-- One declarator gives its variable the same value, and the table is right. -/
theorem Tracks.resolve {reassigned : Text → Bool} (htracks : I.Tracks declared env held)
    (h : Resolution reassigned held d d' held') (hname : d.declaredName? = some x)
    (hx : x ∉ declared) (hplain : ∀ n ∈ d.walk, n.isPlainAccess = true) :
    I.declare env d' = I.declare env d ∧ I.Tracks (x :: declared) (I.declare env d) held' := by
  have hplainMember {x : Text} {init receiver property : Node}
      {computed o : Bool} (hd : d = .declarator (.identifier x) (some init))
      (hinit : init.ungroup = .member receiver property computed o) :
      computed = false ∧ o = false := by
    have hmember := hplain _ (hd ▸ hinit ▸ ungroup_mem_walk_declarator _ init)
    rwa [isPlainAccess, Bool.and_eq_true, Bool.not_eq_true', Bool.not_eq_true'] at hmember
  cases h with
  | holds hinit hreceiver =>
    cases hname
    obtain ⟨rfl, rfl⟩ := hplainMember rfl hinit
    refine ⟨rfl, htracks.hold hx fun env' => ?_⟩
    rw [eval_of_member hinit, eval_member, ← eval_ungroup, hreceiver, eval_thisExpr, eval_thisExpr]
  | @through x holder init receiver property place computed o hinit hreceiver hplace =>
    cases hname
    obtain ⟨rfl, rfl⟩ := hplainMember rfl hinit
    -- what is held has the value of the variable that holds it, here and from now on
    have hvalue (env' : Text → Value) : I.eval env'
        (.member place property false false) = I.eval env init := by
      rw [eval_of_member hinit, hreceiver, eval_member, eval_identifier,
        (htracks holder place hplace).2 env']
    exact ⟨congrArg (Function.update env x) (hvalue env), htracks.hold hx hvalue⟩
  | kept => exact ⟨rfl, htracks.declare hx hname⟩

/-- The declarators give the variables the same values, resolved or not. -/
theorem foldl_resolveDeclarators (reassigned : Text → Bool) {ds : List Node}
    (h : I.Tracks declared env held) (hnames : ∀ d ∈ ds, d.declaredName?.isSome = true)
    (hdistinct : (ds.filterMap declaredName? ++ declared).Nodup)
    (hplain : ∀ d ∈ ds, ∀ n ∈ d.walk, n.isPlainAccess = true) :
    (resolveDeclarators reassigned held ds).1.foldl I.declare env = ds.foldl I.declare env := by
  induction ds generalizing declared env held with
  | nil => rfl
  | cons d ds ih =>
    obtain ⟨x, hx⟩ := Option.isSome_iff_exists.1 (hnames d mem_cons_self)
    rw [filterMap_cons_some hx, cons_append, ← nodup_middle] at hdistinct
    -- the variable is new, so no entry of the table says what it holds
    have hfresh : x ∉ declared := (nodup_cons.1 hdistinct.of_append_right).1
    obtain ⟨hvalue, htracks⟩ :=
      h.resolve (resolveDeclarator_cases reassigned held d) hx hfresh (hplain d mem_cons_self)
    rw [resolveDeclarators_cons, foldl_cons, foldl_cons, hvalue]
    exact ih htracks (fun d hd => hnames d (mem_cons_of_mem _ hd)) hdistinct
      fun d hd => hplain d (mem_cons_of_mem _ hd)

end Meaning

/-- Declarations give their variables the same values when held properties are
    looked through, whatever expressions mean; and then nothing is left to look
    through. -/
theorem resolveHeld_keeps_values {Value : Type} {body : List Node} (hbody : PlainLocals body)
    (I : Meaning Value) (env : Text → Value) :
    I.run env (resolveHeld body) = I.run env body ∧
      Settled (isReassigned body) ((resolveHeld body).flatMap declarators) := by
  refine ⟨?_, resolveHeld_settled body⟩
  have htracks : I.Tracks [] env [] := fun x place hx => by cases hx
  rw [Meaning.run, Meaning.run, resolveHeld, flatMap_resolveStatements]
  exact Meaning.foldl_resolveDeclarators _ htracks hbody.names
    (by rw [append_nil]; exact hbody.distinct) hbody.plain

/-- `var props = this.props, title = props.title; var size = title.length, label
    = show(title);` -/
def cardLocals : List Node :=
  let reads (x receiver property : Text) : Node :=
    .declarator (.identifier x) (some
      (.member (.identifier receiver) (.identifier property) false false))
  [.varDecl .var [.declarator (.identifier "props")
    (some (.member .thisExpr (.identifier "props") false false)),
      reads "title" "props" "title"],
    .varDecl .var [reads "size" "title" "length",
      .declarator (.identifier "label")
        (some (.call (.identifier "show") [.identifier "title"] false))]]

/-- `title` becomes `this.props.title`, and `size` becomes
    `this.props.title.length`. -/
theorem resolveHeld_keeps_values_cardLocals :
    PlainLocals cardLocals ∧
      ((cardLocals.flatMap declarators).countP (·.readFrom?.any isIdentifier) = 2 ∧
        ((resolveHeld cardLocals).flatMap declarators).countP (·.readFrom?.any isIdentifier) = 0) ∧
      ∀ (I : Meaning Nat) (env : Text → Nat),
        I.run env (resolveHeld cardLocals) = I.run env cardLocals ∧
          Settled (isReassigned cardLocals) ((resolveHeld cardLocals).flatMap declarators) := by
  have hplain : PlainLocals cardLocals :=
    ⟨by decide +kernel, by decide +kernel, by decide +kernel, by decide +kernel⟩
  exact ⟨hplain, by decide +kernel, fun I env => resolveHeld_keeps_values hplain I env⟩

end Resugar
