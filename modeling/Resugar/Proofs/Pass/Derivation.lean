import Resugar.Proofs.Pass.Step
import Resugar.Proofs.Tree.Vocabulary

/-!
# Laws of visits

A visit goes through a tree from the bottom up, and the state of the pass goes
along with it. A *law* (`Visit.Law`) says what the visit of one node may do:
which nodes it leaves in which state. To show that all visits obey a law, it is
enough to look at one node (`Visit.ofNode_obeys`): either the nodes in its
fields are visited in order (`Visit.InFields`), each of them by the law, and the
node is settled; or it is a declaration, and each of its declarators becomes a
class or an import, or stays (`Visit.InDeclaration`).
-/

namespace Resugar

open List

namespace Visit

/-- What visits may do: `R inList n s ns s'` allows that the visit of `n` in the
    state `s` leaves `ns` and the state `s'`. `inList` says whether any number
    of nodes can stand there. -/
abbrev Law := (inList : Bool) → Node → PassState → List Node → PassState → Prop

/-- A visit of a node obeys a law. -/
structure Obeys (v : Visit) (R : Law) (n : Node) : Prop where
  single : ∀ {accepts : Bool} {outside : Refs} {s s' : PassState} {n' : Node},
    v.single accepts outside s = .ok (n', s') → R false n s [n'] s'
  spliced : ∀ {accepts : Bool} {outside : Refs} {s s' : PassState} {ns : List Node},
    v.spliced accepts outside s = .ok (ns, s') → R true n s ns s'

/-! ## Fields -/

section

variable (R : Law)

/-- The nodes of a list are visited in order. -/
inductive InList : List (Option Node) → PassState → List (Option Node) → PassState → Prop
  | nil (s : PassState) : InList [] s [] s
  | hole {os os' : List (Option Node)} {s s' : PassState} (rest : InList os s os' s') :
    InList (none :: os) s (none :: os') s'
  | node {n : Node} {ns : List Node} {os os' : List (Option Node)} {s s₁ s' : PassState}
    (first : R true n s ns s₁) (rest : InList os s₁ os' s') :
    InList (some n :: os) s (ns.map some ++ os') s'

/-- The contents of a field are visited. -/
inductive InSlot : Slot Node → PassState → Slot Node → PassState → Prop
  | none (s : PassState) : InSlot (.single none) s (.single none) s
  | single {n n' : Node} {s s' : PassState} (h : R false n s [n'] s') :
    InSlot (.single (some n)) s (.single (some n')) s'
  | list {os os' : List (Option Node)} {s s' : PassState} (h : InList R os s os' s') :
    InSlot (.list os) s (.list os') s'

/-- The walked fields of a node are visited in order, and the others stay. -/
inductive InFields : List (Field Node) → PassState → List (Slot Node) → PassState → Prop
  | nil (s : PassState) : InFields [] s [] s
  | walked {f : Field Node} {fs : List (Field Node)} {slot : Slot Node} {slots : List (Slot Node)}
    {s s₁ s' : PassState} (hf : f.walked = true) (first : InSlot R f.slot s slot s₁)
    (rest : InFields fs s₁ slots s') : InFields (f :: fs) s (slot :: slots) s'
  | kept {f : Field Node} {fs : List (Field Node)} {slots : List (Slot Node)} {s s' : PassState}
    (hf : f.walked = false) (rest : InFields fs s slots s') :
    InFields (f :: fs) s (f.slot :: slots) s'

end

variable {R : Law} {e : Surroundings} {s s' : PassState} {v : Node → Visit} {outside : Refs}
  {n : Node} {ns : List Node}

/-- If the visits to its nodes obey a law, a list is visited by the law. -/
theorem items_inList {os : List (Option Node)} (hv : ∀ n, some n ∈ os → (v n).Obeys R n)
    {accepts : Bool} {os' : List (Option Node)} (h : items accepts outside
      (os.map (Option.map fun n => (n, v n))) s = .ok (os', s')) : InList R os s os' s' := by
  induction os generalizing outside s os' with
  | nil =>
    cases h
    exact .nil _
  | cons o os ih =>
    have hrest : ∀ n, some n ∈ os → (v n).Obeys R n := fun n hn => hv n (mem_cons_of_mem _ hn)
    rcases o with _ | n
    · obtain ⟨os₁, s₁, hos₁, h⟩ := PassM.bind_eq_ok.1 h
      cases h
      exact .hole (ih hrest hos₁)
    · obtain ⟨ns, s₁, hns, h⟩ := PassM.bind_eq_ok.1 h
      obtain ⟨os₁, s₂, hos₁, h⟩ := PassM.bind_eq_ok.1 h
      cases h
      exact .node ((hv n mem_cons_self).spliced hns) (ih hrest hos₁)

/-- The same for what a field holds. -/
theorem slot_inSlot {slot : Slot Node} (hv : ∀ n ∈ slot.nodes, (v n).Obeys R n) {accepts : Bool}
    {slot' : Slot Node}
    (h : Visit.slot accepts outside (slot.map fun n => (n, v n)) s = .ok (slot', s')) :
    InSlot R slot s slot' s' := by
  rcases slot with (_ | n) | os
  · cases h
    exact .none s
  · obtain ⟨n', s₁, hn', h⟩ := PassM.bind_eq_ok.1 h
    cases h
    exact .single ((hv n (mem_singleton_self n)).single hn')
  · obtain ⟨os', s₁, hos', h⟩ := PassM.bind_eq_ok.1 h
    cases h
    exact .list (items_inList (fun n hn => hv n (mem_filterMap.2 ⟨some n, hn, rfl⟩)) hos')

/-- The same for the fields of a node, which are visited in order and added to
    those that are done. -/
theorem fields_inFields {fs : List (Field Node)}
    (hv : ∀ f ∈ fs, ∀ c ∈ f.slot.nodes, (v c).Obeys R c) {done slots : List (Slot Node)}
    (h : fields e n outside done (fs.map (Field.map fun c => (c, v c))) s = .ok (slots, s')) :
    ∃ new, slots = done ++ new ∧ InFields R fs s new s' := by
  induction fs generalizing outside done s with
  | nil =>
    cases h
    exact ⟨[], (append_nil _).symm, .nil _⟩
  | cons f fs ih =>
    have hrest : ∀ g ∈ fs, ∀ c ∈ g.slot.nodes, (v c).Obeys R c :=
      fun g hg => hv g (mem_cons_of_mem _ hg)
    rw [map_cons, fields] at h
    by_cases hf : (f.map fun c => (c, v c)).walked = true
    · rw [if_pos hf] at h
      obtain ⟨slot, s₁, hslot, h⟩ := PassM.bind_eq_ok.1 h
      obtain ⟨new, rfl, hnew⟩ := ih hrest h
      exact ⟨slot :: new, by simp, .walked hf (slot_inSlot (hv f mem_cons_self) hslot) hnew⟩
    · rw [if_neg hf] at h
      obtain ⟨new, rfl, hnew⟩ := ih hrest h
      have hkept : ((f.map fun c => (c, v c)).slot.map (·.1)) = f.slot := by
        obtain ⟨name, walked, slot⟩ := f
        rcases slot with child | items <;> simp [Field.map, Slot.map, Function.comp_def]
      rw [hkept]
      exact ⟨f.slot :: new, by simp, .kept (Bool.not_eq_true _ ▸ hf) hnew⟩

/-! ## Declarations -/

section

variable (R : Law)

/-- The declarators beside a class are visited in order. -/
inductive Beside : List Node → PassState → List Node → PassState → Prop
  | nil (s : PassState) : Beside [] s [] s
  | cons {n d : Node} {ns ds : List Node} {s s₁ s' : PassState} (first : R false n s [d] s₁)
    (rest : Beside ns { s₁ with seen := s₁.seen ++ [⟨d, true, false, .skipped⟩] } ds s') :
    Beside (n :: ns) s (d :: ds) s'

/-- The nodes of a declaration are visited in order: `done` are the declarators
    that stay, and the statements take the place of the declaration. -/
inductive InDeclaration (e : Surroundings) (kind : VariableKind) (inList : Bool) :
    (done : List Node) → List Node → PassState → List Node → PassState → Prop
  | nil (done : List Node) (s : PassState) :
    InDeclaration e kind inList done [] s (declaration kind done) s
  | rebuilt {done : List Node} {n d : Node} {rest ss after : List Node} {s s₁ s₂ s' : PassState}
    (hn : n.isDeclarator = true) (first : R false n s [d] s₁)
    (hclass : e.ClassAt kind inList (done.isEmpty && rest.isEmpty) d s₁ (some ss) s₂)
    (others : Beside R rest s₂ after s') :
    InDeclaration e kind inList done (n :: rest) s
      (declaration kind done ++ ss ++ declaration kind after) s'
  | loaded {done : List Node} {n d : Node} {rest ns : List Node} {s s₁ s₂ s₃ s' : PassState}
    (hn : n.isDeclarator = true) (first : R false n s [d] s₁)
    (hclass : e.ClassAt kind inList (done.isEmpty && rest.isEmpty) d s₁ none s₂)
    (himport : e.TakesImport inList (done.isEmpty && rest.isEmpty) s₂ d s₃)
    (hplace : e.isImport inList (done.isEmpty && rest.isEmpty) d = true)
    (others : InDeclaration e kind inList done rest s₃ ns s') :
    InDeclaration e kind inList done (n :: rest) s ns s'
  | kept {done : List Node} {n d : Node} {rest ns : List Node} {s s₁ s₂ s' : PassState}
    (hn : n.isDeclarator = true) (first : R false n s [d] s₁)
    (hclass : e.ClassAt kind inList (done.isEmpty && rest.isEmpty) d s₁ none s₂)
    (himport : e.isImport inList (done.isEmpty && rest.isEmpty) d = false)
    (others : InDeclaration e kind inList (done ++ [d]) rest
      { s₂ with seen := s₂.seen ++ [⟨d, inList, done.isEmpty && rest.isEmpty, .kept⟩] } ns s') :
    InDeclaration e kind inList done (n :: rest) s ns s'
  /-- A node that is no declarator is visited like any other. -/
  | other {done : List Node} {n : Node} {rest ms ns : List Node} {s s₁ s' : PassState}
    (hn : n.isDeclarator = false) (first : R true n s ms s₁)
    (hsome : (done.isEmpty && rest.isEmpty && ms.isEmpty) = false)
    (others : InDeclaration e kind inList (done ++ ms) rest s₁ ns s') :
    InDeclaration e kind inList done (n :: rest) s ns s'
  /-- The declaration stays when nothing is left of such a node alone. -/
  | empty {n : Node} {s s' : PassState} (hn : n.isDeclarator = false) (first : R true n s [] s') :
    InDeclaration e kind inList [] [n] s [.varDecl kind []] s'

end

/-- The same for the declarators beside a class, which only stay. -/
theorem others_beside (hv : ∀ n ∈ ns, (v n).Obeys R n) {ds : List Node}
    (h : others e outside (ns.map fun n => (n, v n)) s = .ok (ds, s')) : Beside R ns s ds s' := by
  induction ns generalizing outside s ds with
  | nil =>
    cases h
    exact .nil _
  | cons n ns ih =>
    obtain ⟨d, s₁, hd, h⟩ := PassM.bind_eq_ok.1 h
    obtain ⟨f, s₂, hlift, h⟩ := PassM.bind_eq_ok.1 h
    obtain ⟨-, rfl⟩ := PassM.lift_eq_ok.1 hlift
    obtain ⟨_, s₂, hnote, h⟩ := PassM.bind_eq_ok.1 h
    obtain ⟨ds', s₃, hds', h⟩ := PassM.bind_eq_ok.1 h
    cases h
    cases hnote
    exact .cons ((hv n mem_cons_self).single hd)
      (ih (fun m hm => hv m (mem_cons_of_mem _ hm)) hds')

/-- The same for the nodes of a declaration. A declarator is visited, and then
    it is a class, an import, or stays; a class takes the place of the
    declaration. What is no declarator is visited like any other node. -/
theorem declarators_inDeclaration (hv : ∀ n ∈ ns, (v n).Obeys R n) {kind : VariableKind}
    {inList : Bool} {done ss : List Node} (h : declarators e kind inList outside done
      (ns.map fun n => (n, v n)) s = .ok (ss, s')) :
    InDeclaration R e kind inList done ns s ss s' := by
  induction ns generalizing done s ss with
  | nil =>
    cases h
    exact .nil done _
  | cons n rest ih =>
    have hrest : ∀ m ∈ rest, (v m).Obeys R m := fun m hm => hv m (mem_cons_of_mem _ hm)
    have halone : (done.isEmpty && (rest.map fun m => (m, v m)).isEmpty) =
        (done.isEmpty && rest.isEmpty) := by
      rw [isEmpty_map]
    rw [map_cons, declarators, halone] at h
    by_cases hn : n.isDeclarator = true
    · -- a declarator is rebuilt as a class, or else taken as an import, or else kept
      rw [if_pos hn] at h
      obtain ⟨d, s₁, hd, h⟩ := PassM.bind_eq_ok.1 h
      have hd := (hv n mem_cons_self).single hd
      obtain ⟨o, s₂, ho, h⟩ := PassM.bind_eq_ok.1 h
      have hclass := Surroundings.classAt?_cases ho
      rcases o with _ | ss'
      · obtain ⟨taken, s₃, htaken, h⟩ := PassM.bind_eq_ok.1 h
        obtain ⟨hisImport, ⟨hfalse, hs⟩ | ⟨htrue, himport⟩⟩ := Surroundings.takeImport_cases htaken
        · rw [hfalse, hs] at h
          rw [hfalse] at hisImport
          exact .kept hn hd hclass hisImport.symm (ih hrest h)
        · rw [htrue] at h hisImport
          exact .loaded hn hd hclass himport hisImport.symm (ih hrest h)
      · obtain ⟨after, s₃, hafter, h⟩ := PassM.bind_eq_ok.1 h
        cases h
        exact .rebuilt hn hd hclass (others_beside hrest hafter)
    · -- whatever else stands in the list is visited as it would be elsewhere
      rw [if_neg hn] at h
      obtain ⟨ms, s₁, hms, h⟩ := PassM.bind_eq_ok.1 h
      have hleft := (hv n mem_cons_self).spliced hms
      have hn : n.isDeclarator = false := Bool.not_eq_true _ ▸ hn
      by_cases hnone : (done.isEmpty && rest.isEmpty && ms.isEmpty) = true
      · rw [if_pos hnone] at h
        cases h
        simp only [Bool.and_eq_true, List.isEmpty_iff] at hnone
        obtain ⟨⟨rfl, rfl⟩, rfl⟩ := hnone
        exact .empty hn hleft
      · rw [if_neg hnone] at h
        exact .other hn hleft (Bool.not_eq_true _ ▸ hnone) (ih hrest h)

/-- Where one statement can stand, one takes the place of a declaration. -/
theorem InDeclaration.eq_singleton {kind : VariableKind} {done ss : List Node}
    (h : InDeclaration R e kind false done ns s ss s')
    (hsome : (done.isEmpty && ns.isEmpty) = false) : ∃ n, ss = [n] := by
  induction h with
  | nil done s =>
    rw [declaration]
    split
    · simp_all
    · exact ⟨_, rfl⟩
  | @rebuilt done n d rest ss after s s₁ s₂ s' hn first hclass others =>
    -- outside of lists, a class is rebuilt only if it is one statement and
    -- takes the place of all declarators
    obtain _ | _ | _ | ⟨-, -, -, -, -, hplace⟩ := hclass
    simp only [Bool.false_or, Bool.and_eq_true, List.isEmpty_iff, beq_iff_eq] at hplace
    obtain ⟨⟨rfl, rfl⟩, hlength⟩ := hplace
    cases others
    obtain ⟨m, rfl⟩ := List.length_eq_one_iff.1 hlength
    exact ⟨m, rfl⟩
  | @loaded done n d rest ns s s₁ s₂ s₃ s' hn first hclass himport hplace others ih =>
    -- and an import is taken only if other declarators are left
    refine ih ?_
    obtain ⟨-, -⟩ := himport
    simp only [Surroundings.isImport, Bool.and_eq_true, Bool.false_or, Bool.not_eq_true'] at hplace
    exact hplace.2
  | kept hn first hclass himport others ih =>
    exact ih (by simp)
  | other hn first hleft others ih =>
    simp only [Bool.and_eq_false_iff, isEmpty_eq_false_iff] at hleft
    rcases hleft with (hdone | hrest) | hms
    · exact ih (by simp [hdone])
    · exact ih (by simp [hrest])
    · exact ih (by simp [hms])
  | empty => exact ⟨_, rfl⟩

/-! ## Weaker laws -/

section

variable {R' : Law} (hR : ∀ {inList : Bool} {n : Node} {s s' : PassState} {ns : List Node},
  R inList n s ns s' → R' inList n s ns s')
include hR

theorem InList.mono {os os' : List (Option Node)} (h : InList R os s os' s') :
    InList R' os s os' s' := by
  induction h with
  | nil => exact .nil _
  | hole rest ih => exact .hole ih
  | node first rest ih => exact .node (hR first) ih

theorem InSlot.mono {slot slot' : Slot Node} (h : InSlot R slot s slot' s') :
    InSlot R' slot s slot' s' := by
  cases h with
  | none => exact .none _
  | single h => exact .single (hR h)
  | list h => exact .list (h.mono hR)

theorem InFields.mono {fs : List (Field Node)} {slots : List (Slot Node)}
    (h : InFields R fs s slots s') : InFields R' fs s slots s' := by
  induction h with
  | nil => exact .nil _
  | walked hf first rest ih => exact .walked hf (first.mono hR) ih
  | kept hf rest ih => exact .kept hf ih

theorem Beside.mono {ds : List Node} (h : Beside R ns s ds s') : Beside R' ns s ds s' := by
  induction h with
  | nil => exact .nil _
  | cons first rest ih => exact .cons (hR first) ih

theorem InDeclaration.mono {kind : VariableKind} {done ss : List Node}
    (h : InDeclaration R e kind inList done ns s ss s') :
    InDeclaration R' e kind inList done ns s ss s' := by
  induction h with
  | nil => exact .nil _ _
  | rebuilt hn first hclass others => exact .rebuilt hn (hR first) hclass (others.mono hR)
  | loaded hn first hclass himport hplace others ih =>
    exact .loaded hn (hR first) hclass himport hplace ih
  | kept hn first hclass himport others ih => exact .kept hn (hR first) hclass himport ih
  | other hn first hsome others ih => exact .other hn (hR first) hsome ih
  | empty hn first => exact .empty hn (hR first)

end

/-! ## Trees -/

/-- Some visit of a node, where one node stands, leaves another. -/
def Leaves (e : Surroundings) (n n' : Node) : Prop :=
  ∃ accepts outside s s', (ofNode e n).single accepts outside s = .ok (n', s')

/-- Where one node stands, the law is that some visit leaves what is there. -/
def Leaving (e : Surroundings) : Law := fun inList n _ ns _ =>
  inList = false → ∀ n' ∈ ns, Leaves e n n'

theorem ofNode_leaving (e : Surroundings) (n : Node) : (ofNode e n).Obeys (Leaving e) n where
  single h := fun _ _ hn' => mem_singleton.1 hn' ▸ ⟨_, _, _, _, h⟩
  spliced _ := nofun

/-- Two laws at once. -/
def Both (K R : Law) : Law := fun inList n s ns s' =>
  K inList n s ns s' ∧ R inList n s ns s'

/-- A visit that obeys two laws obeys both at once. -/
theorem Obeys.both {v : Visit} {K : Law} (hK : v.Obeys K n) (hR : v.Obeys R n) :
    v.Obeys (Both K R) n where
  single h := ⟨hK.single h, hR.single h⟩
  spliced h := ⟨hK.spliced h, hR.spliced h⟩

/-- All visits obey a law that allows what becomes of one node, when the nodes
    below it are visited by the law, and by another one that all visits obey. -/
theorem ofNode_obeys_both {K : Law} (hK : ∀ n, (ofNode e n).Obeys K n)
    (hnode : ∀ {n : Node} {inList accepts : Bool} {s s₁ s' : PassState}
      {slots : List (Slot Node)} {n' : Node}, (∀ kind ds, n ≠ .varDecl kind ds) →
      InFields (Both K R) n.fields s slots s₁ →
        e.settle accepts (n.withSlots slots) s₁ = .ok (n', s') → R inList n s [n'] s')
    (hempty : ∀ kind inList s, R inList (.varDecl kind []) s [.varDecl kind []] s)
    (hdeclaration : ∀ {kind : VariableKind} {inList : Bool} {ds ss : List Node} {s s' : PassState},
      ds ≠ [] → InDeclaration (Both K R) e kind inList [] ds s ss s' →
      R inList (.varDecl kind ds) s ss s') (n : Node) : (ofNode e n).Obeys R n := by
  induction n using Node.induct with
  | h n ih =>
    have hfold : ofNode e n = ofFields e n (n.fields.map (Field.map fun c => (c, ofNode e c))) :=
      Node.fold_eq _ n
    rw [hfold]
    unfold ofFields
    split
    · -- a declaration: its declarators are visited one by one, whether it stands in a list or not
      rename_i kind ds
      have hds : ((Node.varDecl kind ds).fields.map (Field.map fun c => (c, ofNode e c))).flatMap
          Field.walkedNodes = ds.map fun c => (c, ofNode e c) := by
        rw [Node.flatMap_walkedNodes_map]
        simp [Node.fields, Field.list, Field.walkedNodes, Slot.nodes]
      have hparts : ∀ c ∈ ds, (ofNode e c).Obeys (Both K R) c := fun c hc =>
        (hK c).both (ih c (by simpa [Node.parts, Node.fields, Field.list, Slot.nodes] using hc))
      have hvarDecl {inList : Bool} {outside : Refs} {s s' : PassState} {ss : List Node}
          (h : varDecl e kind inList outside (ds.map fun c => (c, ofNode e c)) s = .ok (ss, s')) :
          R inList (.varDecl kind ds) s ss s' ∧ (inList = false → ∃ m, ss = [m]) := by
        rw [varDecl, isEmpty_map] at h
        by_cases hnil : ds.isEmpty = true
        · rw [if_pos hnil] at h
          obtain rfl := List.isEmpty_iff.1 hnil
          cases h
          exact ⟨hempty _ _ _, fun _ => ⟨_, rfl⟩⟩
        · rw [if_neg hnil] at h
          have hin := declarators_inDeclaration hparts h
          refine ⟨hdeclaration (mt List.isEmpty_iff.2 hnil) hin, ?_⟩
          rintro rfl
          exact hin.eq_singleton (by simpa using hnil)
      rw [hds]
      constructor
      · intro accepts outside s s' n' h
        obtain ⟨ss, s₁, hss, h⟩ := PassM.bind_eq_ok.1 h
        obtain ⟨hR, hone⟩ := hvarDecl hss
        obtain ⟨m, rfl⟩ := hone rfl
        cases h
        exact hR
      · intro accepts outside s s' ss h
        exact (hvarDecl h).1
    · -- any other node: its fields are visited, and then it is settled
      rename_i hn
      have hvisit {inList accepts : Bool} {outside : Refs} {s s' : PassState} {n' : Node}
          (h : (do e.settle accepts (n.withSlots
            (← fields e n outside [] (n.fields.map
              (Field.map fun c => (c, ofNode e c)))))) s = .ok (n', s')) :
          R inList n s [n'] s' := by
        obtain ⟨slots, s₁, hslots, h⟩ := PassM.bind_eq_ok.1 h
        obtain ⟨new, rfl, hnew⟩ :=
          fields_inFields (fun f hf c hc => (hK c).both (ih c (Node.mem_parts hf hc))) hslots
        exact hnode hn hnew h
      constructor
      · exact hvisit
      · intro accepts outside s s' ss h
        obtain ⟨n', s₁, hn', h⟩ := PassM.bind_eq_ok.1 h
        cases h
        exact hvisit hn'

/-- All visits obey a law that allows what becomes of one node, when the nodes
    below it obey it. -/
theorem ofNode_obeys
    (hnode : ∀ {n : Node} {inList accepts : Bool} {s s₁ s' : PassState}
      {slots : List (Slot Node)} {n' : Node}, (∀ kind ds, n ≠ .varDecl kind ds) →
      InFields R n.fields s slots s₁ →
        e.settle accepts (n.withSlots slots) s₁ = .ok (n', s') → R inList n s [n'] s')
    (hempty :  ∀ kind inList s, R inList (.varDecl kind []) s [.varDecl kind []] s)
    (hdeclaration : ∀ {kind : VariableKind} {inList : Bool} {ds ss : List Node} {s s' : PassState},
      ds ≠ [] → InDeclaration R e kind inList [] ds s ss s' → R inList (.varDecl kind ds) s ss s')
    (n : Node) : (ofNode e n).Obeys R n :=
  ofNode_obeys_both (ofNode_leaving e) (fun hn hfields => hnode hn (hfields.mono And.right)) hempty
    (fun hds hin => hdeclaration hds (hin.mono And.right)) n

/-! ## Invariants -/

section

-- a law by which the visits of some nodes keep what holds of the state
variable {P : PassState → Prop} {Q : Node → Prop}
  (hR : ∀ {inList : Bool} {n : Node} {s s' : PassState} {ns : List Node},
    R inList n s ns s' → Q n → P s → P s')
include hR

/-- What a law keeps of the state is kept through a list. -/
theorem InList.keeps {os os' : List (Option Node)} (h : InList R os s os' s')
    (hQ : ∀ n, some n ∈ os → Q n) (hs : P s) : P s' := by
  induction h with
  | nil => exact hs
  | hole rest ih => exact ih (fun n hn => hQ n (mem_cons_of_mem _ hn)) hs
  | node first rest ih =>
    exact ih (fun n hn => hQ n (mem_cons_of_mem _ hn)) (hR first (hQ _ mem_cons_self) hs)

/-- It is kept through what a field holds. -/
theorem InSlot.keeps {slot slot' : Slot Node} (h : InSlot R slot s slot' s')
    (hQ : ∀ n ∈ slot.nodes, Q n) (hs : P s) : P s' := by
  cases h with
  | none => exact hs
  | single h => exact hR h (hQ _ (mem_singleton_self _)) hs
  | list h =>
    exact h.keeps (P := P) (Q := Q) hR
      (fun n hn => hQ n (mem_filterMap.2 ⟨some n, hn, rfl⟩)) hs

/-- It is kept through the fields of a node, if the walked ones hold nodes that
    the law is for. -/
theorem InFields.keeps {fs : List (Field Node)} {slots : List (Slot Node)}
    (h : InFields R fs s slots s')
    (hQ : ∀ f ∈ fs, f.walked = true → ∀ n ∈ f.slot.nodes, Q n) (hs : P s) : P s' := by
  induction h with
  | nil => exact hs
  | walked hf first rest ih =>
    have hfirst := first.keeps (P := P) (Q := Q) hR (hQ _ mem_cons_self hf) hs
    exact ih (fun g hg => hQ g (mem_cons_of_mem _ hg)) hfirst
  | kept hf rest ih => exact ih (fun g hg => hQ g (mem_cons_of_mem _ hg)) hs

end

section

-- what each step of a visit keeps
variable {P : PassState → Prop}
  (hsettle : ∀ {accepts : Bool} {n n' : Node} {s s' : PassState},
    e.settle accepts n s = .ok (n', s') → P s → P s')
  (hclass : ∀ {kind : VariableKind} {inList alone : Bool} {d : Node}
    {o : Option (List Node)} {s s' : PassState},
    e.ClassAt kind inList alone d s o s' → P s → P s')
  (himport : ∀ {inList alone : Bool} {d : Node} {s s' : PassState},
    e.isImport inList alone d = true → e.TakesImport inList alone s d s' → P s → P s')
  (hnote : ∀ {s : PassState} (x : Sighting), x.verdict = .kept ∨ x.verdict = .skipped → P s →
    P { s with seen := s.seen ++ [x] })

/-- What holds of the state still holds of it after a visit. -/
def Keeping (P : PassState → Prop) : Law := fun _ _ s _ s' => P s → P s'

include hnote in
theorem Beside.keeping {ns ds : List Node} (h : Beside (Keeping P) ns s ds s') (hs : P s) :
    P s' := by
  induction h with
  | nil => exact hs
  | cons first rest ih => exact ih (hnote _ (.inr rfl) (first hs))

include hclass himport hnote in
/-- What visits keep of the state is kept through a declaration, if classes and
    imports keep it too. -/
theorem InDeclaration.keeping {done ns ss : List Node}
    (h : InDeclaration (Keeping P) e kind inList done ns s ss s') (hs : P s) : P s' := by
  induction h with
  | nil => exact hs
  | rebuilt hn first hbuilt others => exact others.keeping hnote (hclass hbuilt (first hs))
  | loaded hn first hnone htakes hplace others ih =>
    exact ih (himport hplace htakes (hclass hnone (first hs)))
  | kept hn first hnone hstays others ih => exact ih (hnote _ (.inl rfl) (hclass hnone (first hs)))
  | other hn first hsome others ih => exact ih (first hs)
  | empty hn first => exact first hs

include hsettle hclass himport hnote in
/-- Visits keep what each of their steps keeps. -/
theorem ofNode_keeping (n : Node) : (ofNode e n).Obeys (Keeping P) n := by
  refine ofNode_obeys ?_ ?_ ?_ n
  · intro n inList accepts s s₁ s' slots n' _ hfields h hs
    exact hsettle h (hfields.keeps (P := P) (Q := fun _ => True) (fun h _ => h)
      (fun _ _ _ _ _ => trivial) hs)
  · exact fun _ _ _ => id
  · exact fun _ hin => hin.keeping hclass himport hnote

end

/-- Only imports bring new names for variables. -/
theorem ofNode_renames (himports : e.config.imports = false) (r : Renaming) (n : Node) :
    (ofNode e n).Obeys (Keeping fun s => s.renames = r) n := by
  refine ofNode_keeping ?_ ?_ ?_ (fun _ _ => id) n
  · intro accepts n n' s s' h hs
    obtain ⟨-, rfl⟩ | hmarks := Surroundings.settle_cases h
    · exact hs
    · cases hmarks
      exact hs
  · exact fun h hs => h.keeps.1.trans hs
  · intro inList alone d s s' hplace
    rw [Surroundings.isImport_eq_false himports] at hplace
    cases hplace

/-! ## Origins -/

/-- A node that a visit leaves comes from a node that it meets: the law allows
    it to be left of that node. -/
def Origin (R : Law) (s s' : PassState) (n n' : Node) : Prop :=
  ∃ inList s₁ ns s₂, s.Reaches s₁ ∧ R inList n s₁ ns s₂ ∧ s₂.Reaches s' ∧ n' ∈ ns

/-- A node that comes from another one still does so in a longer run. -/
theorem Origin.extend {s₀ s₁ : PassState} {n' : Node} (h : Origin R s s' n n') (h₀ : s₀.Reaches s)
    (h₁ : s'.Reaches s₁) : Origin R s₀ s₁ n n' := by
  obtain ⟨inList, s₂, ns, s₃, hs₂, hR, hs₃, hn'⟩ := h
  exact ⟨inList, s₂, ns, s₃, h₀.trans hs₂, hR, hs₃.trans h₁, hn'⟩

section

-- a law that allows steps of the pass only
variable
  (hR : ∀ {inList : Bool} {n : Node} {s s' : PassState} {ns : List Node},
    R inList n s ns s' → s.Reaches s')
  {kind : VariableKind} {done : List Node}
include hR

/-- All that is left of a list comes from its nodes. -/
theorem InList.origin {os os' : List (Option Node)} (h : InList R os s os' s') :
    s.Reaches s' ∧ ∀ n', some n' ∈ os' → ∃ n, some n ∈ os ∧ Origin R s s' n n' := by
  induction h with
  | nil => exact ⟨.refl, nofun⟩
  | hole rest ih =>
    refine ⟨ih.1, fun n' hn' => ?_⟩
    obtain ⟨n, hn, horigin⟩ := ih.2 n' ((mem_cons.1 hn').resolve_left nofun)
    exact ⟨n, mem_cons_of_mem _ hn, horigin⟩
  | @node n ns os os' s s₁ s' first rest ih =>
    refine ⟨(hR first).trans ih.1, fun n' hn' => ?_⟩
    rcases mem_append.1 hn' with hn' | hn'
    · obtain ⟨m, hm, heq⟩ := mem_map.1 hn'
      cases heq
      exact ⟨n, mem_cons_self, true, s, ns, s₁, .refl, first, ih.1, hm⟩
    · obtain ⟨m, hm, horigin⟩ := ih.2 n' hn'
      exact ⟨m, mem_cons_of_mem _ hm, horigin.extend (hR first) .refl⟩

/-- What is left in a field comes from there, and one node stays one. -/
theorem InSlot.origin {slot slot' : Slot Node} (h : InSlot R slot s slot' s') :
    s.Reaches s' ∧ (∀ n, slot = .single (some n) → slot'.nodes ≠ []) ∧
      ∀ n' ∈ slot'.nodes, ∃ n ∈ slot.nodes, Origin R s s' n n' := by
  cases h with
  | none => exact ⟨.refl, nofun, nofun⟩
  | @single n n' s s' h =>
    refine ⟨hR h, fun _ _ => cons_ne_nil _ _, fun m hm => ⟨n, mem_singleton_self _, ?_⟩⟩
    exact ⟨false, s, [n'], s', .refl, h, .refl, hm⟩
  | list h =>
    obtain ⟨hreach, horigin⟩ := h.origin hR
    refine ⟨hreach, nofun, fun n' hn' => ?_⟩
    obtain ⟨n, hn, h⟩ := horigin n' (by simpa [Slot.nodes] using hn')
    exact ⟨n, by simpa [Slot.nodes] using hn, h⟩

/-- All that is left of the fields comes from what they held; one node stays
    one, and a field that is not walked stays. -/
theorem InFields.origin {fs : List (Field Node)} {slots : List (Slot Node)}
    (h : InFields R fs s slots s') :
    s.Reaches s' ∧ ∀ (i : Nat) (f : Field Node), fs[i]? = some f → ∃ slot, slots[i]? = some slot ∧
      (∀ n, f.slot = .single (some n) → slot.nodes ≠ []) ∧ (f.walked = false → slot = f.slot) ∧
      (f.walked = true → ∀ n' ∈ slot.nodes, ∃ n ∈ f.slot.nodes, Origin R s s' n n') := by
  induction h with
  | nil => exact ⟨.refl, nofun⟩
  | @walked f fs slot slots s s₁ s' hf first rest ih =>
    obtain ⟨hreach, hone, horigin⟩ := first.origin hR
    refine ⟨hreach.trans ih.1, fun i g hg => ?_⟩
    rcases i with _ | i
    · cases hg
      refine ⟨slot, rfl, hone, fun hnot => absurd (hf.symm.trans hnot) nofun, fun _ n' hn' => ?_⟩
      obtain ⟨n, hn, h⟩ := horigin n' hn'
      exact ⟨n, hn, h.extend .refl ih.1⟩
    · obtain ⟨slot', hslot', hone', hkept, hwalked⟩ := ih.2 i g hg
      refine ⟨slot', hslot', hone', hkept, fun hg n' hn' => ?_⟩
      obtain ⟨n, hn, h⟩ := hwalked hg n' hn'
      exact ⟨n, hn, h.extend hreach .refl⟩
  | @kept f fs slots s s' hf rest ih =>
    refine ⟨ih.1, fun i g hg => ?_⟩
    rcases i with _ | i
    · cases hg
      refine ⟨f.slot, rfl, fun n hn => ?_, fun _ => rfl,
        fun hwalked => absurd (hf.symm.trans hwalked) nofun⟩
      rw [hn]
      exact cons_ne_nil _ _
    · exact ih.2 i g hg

/-- What stands in a field of a node, once its fields are visited, comes from
    what stood there. -/
theorem InFields.withSlots_origin {slots : List (Slot Node)} (h : InFields R n.fields s slots s')
    {f : Field Node} (hf : f ∈ (n.withSlots slots).fields) {c' : Node} (hc' : c' ∈ f.slot.nodes) :
    ∃ g ∈ n.fields, f.walked = g.walked ∧
      (g.walked = false ∧ c' ∈ g.slot.nodes ∨
        g.walked = true ∧ ∃ c ∈ g.slot.nodes, Origin R s s' c c') := by
  obtain ⟨i, hi⟩ := mem_iff_getElem?.1 hf
  obtain ⟨g, hg, hw, hkeeps⟩ := Node.fields_setSlots hi
  obtain ⟨slot, hslot, hone, hkept, hwalked⟩ := (h.origin hR).2 i g hg
  rw [getD_eq_getElem?_getD, hslot, Option.getD_some] at hkeeps
  refine ⟨g, mem_of_getElem? hg, hw, ?_⟩
  rcases hkeeps c' hc' with hc' | ⟨hsingle, hnone⟩
  · rcases hgw : g.walked with _ | _
    · exact .inl ⟨rfl, hkept hgw ▸ hc'⟩
    · exact .inr ⟨rfl, hwalked hgw c' hc'⟩
  · exact absurd hnone (hone c' hsingle)

/-- A declarator that stays in place of a node, and is noted as such. -/
def Stays (R : Law) (s s' : PassState) (ns : List Node) (d : Node) : Prop :=
  ∃ n ∈ ns, Origin R s s' n d ∧
    (n.isDeclarator = true → ∃ x ∈ s'.seen, x.declarator = d ∧
      (x.verdict = .kept ∨ x.verdict = .skipped))

omit hR in
/-- A declarator that stays does so among more nodes, in a longer run. -/
theorem Stays.extend {s₀ s₁ : PassState} {ms : List Node} {d : Node} (h : Stays R s s' ns d)
    (hns : ns ⊆ ms) (h₀ : s₀.Reaches s) (h₁ : s'.Reaches s₁) : Stays R s₀ s₁ ms d := by
  obtain ⟨n, hn, horigin, hseen⟩ := h
  refine ⟨n, hns hn, horigin.extend h₀ h₁, fun hdeclarator => ?_⟩
  obtain ⟨x, hx, h⟩ := hseen hdeclarator
  exact ⟨x, h₁.grows.seen.subset hx, h⟩

/-- Beside a class, declarators only stay. -/
theorem Beside.stays {ds : List Node} (h : Beside R ns s ds s') :
    s.Reaches s' ∧ ∀ d ∈ ds, Stays R s s' ns d := by
  induction h with
  | nil => exact ⟨.refl, nofun⟩
  | @cons n d ns ds s s₁ s' first rest ih =>
    have hnote := (hR first).tail (.note s₁ ⟨d, true, false, .skipped⟩)
    refine ⟨hnote.trans ih.1, fun d' hd' => ?_⟩
    rcases mem_cons.1 hd' with rfl | hd'
    · refine ⟨n, mem_cons_self, ?_, fun _ => ⟨⟨d', true, false, .skipped⟩, ?_, rfl, .inr rfl⟩⟩
      · exact ⟨false, s, [d'], s₁, .refl, first, .head (.note s₁ _) ih.1, mem_singleton_self _⟩
      · exact ih.1.grows.seen.subset (mem_append_right _ (mem_singleton_self _))
    · exact (ih.2 d' hd').extend (subset_cons_self _ _) hnote .refl

/-- Where a statement in place of a declaration comes from: it declares what
    stays, or a class brings it. -/
inductive FromDeclaration (R : Law) (e : Surroundings) (kind : VariableKind) (inList : Bool)
    (s s' : PassState) (done ns : List Node) : Node → Prop
  | declared {ds : List Node} (h : ∀ d ∈ ds, d ∈ done ∨ Stays R s s' ns d) :
    FromDeclaration R e kind inList s s' done ns (.varDecl kind ds)
  | brought {n d m : Node} {alone : Bool} {ss : List Node} {s₀ s₁ s₂ : PassState} (hn : n ∈ ns)
    (hdeclarator : n.isDeclarator = true) (h₀ : s.Reaches s₀) (hd : R false n s₀ [d] s₁)
    (hclass : e.ClassAt kind inList alone d s₁ (some ss) s₂) (h₂ : s₂.Reaches s') (hm : m ∈ ss) :
    FromDeclaration R e kind inList s s' done ns m

omit hR in
/-- A declaration of what stays comes from the declaration. -/
theorem fromDeclaration_declaration {ds : List Node} (h : ∀ d ∈ ds, d ∈ done ∨ Stays R s s' ns d) :
    ∀ m ∈ declaration kind ds, FromDeclaration R e kind inList s s' done ns m := by
  intro m hm
  rw [declaration] at hm
  split at hm
  · cases hm
  · exact mem_singleton.1 hm ▸ .declared h

omit hR in
/-- The rest of a declaration is visited from a later state. -/
theorem FromDeclaration.extend {done' : List Node} {m : Node} {s₁ : PassState}
    (h : FromDeclaration R e kind inList s₁ s' done' ns m) (hs : s.Reaches s₁)
    (hdone : ∀ d ∈ done', d ∈ done ∨ Stays R s s' (n :: ns) d) :
    FromDeclaration R e kind inList s s' done (n :: ns) m := by
  cases h with
  | declared h =>
    refine .declared fun d hd => ?_
    rcases h d hd with hd | hd
    · exact hdone d hd
    · exact .inr (hd.extend (subset_cons_self _ _) hs .refl)
  | brought hn hdeclarator h₀ hd hclass h₂ hm =>
    exact .brought (mem_cons_of_mem _ hn) hdeclarator (hs.trans h₀) hd hclass h₂ hm

/-- All that takes the place of a declaration declares what stays of it, or
    comes from a class in it. -/
theorem InDeclaration.origin {ss : List Node} (h : InDeclaration R e kind inList done ns s ss s') :
    s.Reaches s' ∧ ∀ m ∈ ss, FromDeclaration R e kind inList s s' done ns m := by
  induction h with
  | nil done s => exact ⟨.refl, fromDeclaration_declaration fun d hd => .inl hd⟩
  | @rebuilt done n d rest ss after s s₁ s₂ s' hn first hclass others =>
    obtain ⟨hothers, hstays⟩ := others.stays hR
    have hbefore := (hR first).trans hclass.reaches
    refine ⟨hbefore.trans hothers, fun m hm => ?_⟩
    -- the declarators before the class and those after it are declared on
    -- either side of it
    rcases mem_append.1 hm with hm | hm
    · rcases mem_append.1 hm with hm | hm
      · exact fromDeclaration_declaration (fun d hd => .inl hd) m hm
      · exact .brought mem_cons_self hn .refl first hclass hothers hm
    · refine fromDeclaration_declaration (fun d' hd' => .inr ?_) m hm
      exact (hstays d' hd').extend (subset_cons_self _ _) hbefore .refl
  | loaded hn first hclass himport hplace others ih =>
    have hbefore := ((hR first).trans hclass.reaches).trans himport.reaches
    exact ⟨hbefore.trans ih.1, fun m hm => (ih.2 m hm).extend hbefore fun d hd => .inl hd⟩
  | @kept done n d rest ns s s₁ s₂ s' hn first hclass himport others ih =>
    let x : Sighting := ⟨d, inList, done.isEmpty && rest.isEmpty, .kept⟩
    have hafter := hclass.reaches.tail (.note s₂ x)
    have hbefore := (hR first).trans hafter
    refine ⟨hbefore.trans ih.1, fun m hm => (ih.2 m hm).extend hbefore fun d' hd' => ?_⟩
    rcases mem_append.1 hd' with hd' | hd'
    · exact .inl hd'
    · obtain rfl := mem_singleton.1 hd'
      -- that it was kept is noted, and notes last
      refine .inr ⟨n, mem_cons_self, ?_, fun _ => ⟨x, ?_, rfl, .inl rfl⟩⟩
      · exact ⟨false, s, [d'], s₁, .refl, first, hafter.trans ih.1, mem_singleton_self _⟩
      · exact ih.1.grows.seen.subset (mem_append_right _ (mem_singleton_self _))
  | @other done n rest ms ns s s₁ s' hn first hsome others ih =>
    refine ⟨(hR first).trans ih.1, fun m hm => (ih.2 m hm).extend (hR first) fun d hd => ?_⟩
    rcases mem_append.1 hd with hd | hd
    · exact .inl hd
    · refine .inr ⟨n, mem_cons_self,
        ⟨true, s, ms, s₁, .refl, first, ih.1, hd⟩, fun hdeclarator => ?_⟩
      rw [hn] at hdeclarator
      cases hdeclarator
  | empty hn first => exact ⟨hR first, fun m hm => mem_singleton.1 hm ▸ .declared nofun⟩

end

end Visit

end Resugar
