import Mathlib.Data.List.Chain
import Resugar.Proofs.Markup.Rebuilt

/-!
# What stands between tags

The children of an element are printed one after the other, with nothing between
them. Who reads them finds containers, elements, and runs of text, which go on
to the next brace or `<` (`Piece`). So the text between tags is cut into pieces
in one way at most (`MarkupGrammar.Splits.unique`).

A run of text has no end of its own, and neighbouring texts are read as one
(`Piece.join`): `createElement("p", null, "a", "b")` becomes `<p>ab</p>`, with
one child. Moreover, where a call has no arguments for children, those that its
props name are between the tags.
-/

namespace Resugar

open Node List

/-! ## Pieces -/

/-- What children of an element look like in its text. -/
inductive PieceKind where
  | text
  | container
  | element
  deriving DecidableEq

/-- What begins with a code point. -/
def PieceKind.openedBy (c : CodePoint) : PieceKind :=
  if c.val = 0x7B then container else if c = '<' then element else text

/-- A piece of the text between tags. -/
structure Piece where
  kind : PieceKind
  code : Text

namespace Piece

def isText (p : Piece) : Bool :=
  p.kind = .text

/-- A piece before others: a text runs into the next text. -/
def joinTo (p : Piece) : List Piece → List Piece
  | [] => [p]
  | q :: ps => if p.isText && q.isText then ⟨.text, p.code ++ q.code⟩ :: ps else p :: q :: ps

/-- Pieces with neighbouring texts joined. -/
def join (ps : List Piece) : List Piece :=
  ps.foldr joinTo []

end Piece

/-- Whether no two neighbours are both of a kind. -/
def Apart {α : Type} (p : α → Bool) (l : List α) : Prop :=
  l.IsChain fun a b => (p a && p b) = false

instance {α : Type} {p : α → Bool} {l : List α} : Decidable (Apart p l) :=
  inferInstanceAs (Decidable (List.IsChain _ l))

/-- Whether neighbours are of a kind can be read off a list of kinds. -/
theorem apart_iff_map {α : Type} {p : α → Bool} {l : List α} :
    Apart p l ↔ (l.map p).IsChain fun a b => (a && b) = false := by
  rw [isChain_map]
  rfl

/-- A run goes on as far as its code points do. -/
theorem Text.takeWhile_run {p : CodePoint → Prop} [DecidablePred p] {run rest : Text}
    (hrun : ∀ c ∈ run, p c) (hend : ∀ c ∈ rest.head?, ¬p c) :
    (run ++ rest).takeWhile (p ·) = run := by
  rw [takeWhile_append_of_pos fun c hc => decide_eq_true (hrun c hc)]
  cases rest with
  | nil => rw [takeWhile_nil, append_nil]
  | cons c rest => rw [takeWhile_cons_of_neg (by simpa using hend c rfl), append_nil]

/-- Which codes are containers and which are elements. What one begins with
    decides which it can be, and none is the beginning of another one. -/
structure MarkupGrammar where
  IsContainer : Text → Prop
  IsElement : Text → Prop
  container_head {t : Text} : IsContainer t → t.head?.map PieceKind.openedBy = some .container
  element_head {t : Text} : IsElement t → t.head?.map PieceKind.openedBy = some .element
  container_eq {t u : Text} : IsContainer t → IsContainer u → t <+: u → t = u
  element_eq {t u : Text} : IsElement t → IsElement u → t <+: u → t = u

namespace MarkupGrammar

variable {G : MarkupGrammar} {p q : Piece} {ps qs : List Piece} {t rest rest' : Text}

/-- The codes of pieces. -/
def IsPiece (G : MarkupGrammar) (p : Piece) : Prop :=
  match p.kind with
  | .text => p.code ≠ [] ∧ ∀ c ∈ p.code, PieceKind.openedBy c = .text
  | .container => G.IsContainer p.code
  | .element => G.IsElement p.code

/-- A text goes on with another piece: a run of text goes as far as it can. -/
def Ends (p : Piece) (rest : Text) : Prop :=
  p.kind = .text → ∀ c ∈ rest.head?, PieceKind.openedBy c ≠ .text

/-- A text is cut into pieces. -/
inductive Splits (G : MarkupGrammar) : Text → List Piece → Prop
  | nil : Splits G [] []
  | cons {p : Piece} {rest : Text} {ps : List Piece} (hp : G.IsPiece p) (hend : Ends p rest)
    (h : Splits G rest ps) : Splits G (p.code ++ rest) (p :: ps)

theorem IsPiece.head (h : G.IsPiece p) : p.code.head?.map PieceKind.openedBy = some p.kind := by
  obtain ⟨kind, code⟩ := p
  cases kind with
  | text =>
    obtain ⟨hne, hcode⟩ := h
    obtain ⟨c, code, rfl⟩ := exists_cons_of_ne_nil hne
    exact congrArg some (hcode c mem_cons_self)
  | container => exact G.container_head h
  | element => exact G.element_head h

theorem IsPiece.head_append (h : G.IsPiece p) (rest : Text) :
    (p.code ++ rest).head?.map PieceKind.openedBy = some p.kind := by
  have hhead := h.head
  cases hcode : p.code with
  | nil =>
    rw [hcode] at hhead
    cases hhead
  | cons c t => rwa [hcode] at hhead

/-- The first piece of a text is known. -/
theorem IsPiece.eq_of_append_eq (hp : G.IsPiece p) (hq : G.IsPiece q) (hend : Ends p rest)
    (hend' : Ends q rest') (h : p.code ++ rest = q.code ++ rest') : p = q := by
  have hkind : p.kind = q.kind := by
    have hhead := hp.head_append rest
    rw [h, hq.head_append] at hhead
    exact (Option.some.inj hhead).symm
  have hprefix : p.code <+: q.code ∨ q.code <+: p.code :=
    List.prefix_or_prefix_of_prefix (prefix_append _ rest) (h ▸ prefix_append _ rest')
  obtain ⟨kind, code⟩ := p
  obtain ⟨kind', code'⟩ := q
  obtain rfl : kind = kind' := hkind
  congr 1
  cases kind with
  | text =>
    have hrun := Text.takeWhile_run hp.2 (hend rfl)
    rw [show code ++ rest = code' ++ rest' from h, Text.takeWhile_run hq.2 (hend' rfl)] at hrun
    exact hrun.symm
  | container => exact hprefix.elim (G.container_eq hp hq) fun h => (G.container_eq hq hp h).symm
  | element => exact hprefix.elim (G.element_eq hp hq) fun h => (G.element_eq hq hp h).symm

theorem Splits.exists_append (h : G.Splits t (p :: ps)) :
    ∃ rest, t = p.code ++ rest ∧ G.IsPiece p ∧ Ends p rest ∧ G.Splits rest ps := by
  cases h with
  | cons hp hend h => exact ⟨_, rfl, hp, hend, h⟩

/-- What a text begins with shows the kind of its first piece. -/
theorem Splits.head (h : G.Splits t ps) :
    t.head?.map PieceKind.openedBy = ps.head?.map Piece.kind := by
  cases h with
  | nil => rfl
  | cons hp _ _ => exact hp.head_append _

/-- A text is cut into pieces in one way at most. -/
theorem Splits.unique (h : G.Splits t ps) (h' : G.Splits t qs) : ps = qs := by
  induction h generalizing qs with
  | nil =>
    have hhead := h'.head
    cases qs with
    | nil => rfl
    | cons q qs => cases hhead
  | @cons p rest ps hp hend _ ih =>
    cases qs with
    | nil =>
      have hhead := h'.head
      rw [hp.head_append] at hhead
      cases hhead
    | cons q qs =>
      -- both begin with the same piece, and so go on with the same text
      obtain ⟨rest', ht, hq, hend', hrest'⟩ := h'.exists_append
      obtain rfl := hp.eq_of_append_eq hq hend hend' ht
      obtain rfl := append_cancel_left ht
      rw [ih hrest']

/-- A text before others runs into the next one, and the rest stays. -/
theorem Splits.joinTo (hp : G.IsPiece p) (h : G.Splits rest ps) :
    G.Splits (p.code ++ rest) (p.joinTo ps) := by
  cases ps with
  | nil =>
    cases h
    exact .cons hp (fun _ c hc => by cases hc) .nil
  | cons q ps =>
    rw [Piece.joinTo]
    split
    · -- two texts make one run, which ends where the second of them does
      rename_i htexts
      rw [Piece.isText, Piece.isText, Bool.and_eq_true, decide_eq_true_eq,
        decide_eq_true_eq] at htexts
      obtain ⟨rest, rfl, hq, hend, h⟩ := h.exists_append
      rw [IsPiece, htexts.1] at hp
      rw [IsPiece, htexts.2] at hq
      rw [← append_assoc]
      refine .cons (p := ⟨.text, p.code ++ q.code⟩) ⟨?_, forall_mem_append.2 ⟨hp.2, hq.2⟩⟩
        (fun _ => hend htexts.2) h
      exact fun hnil => hp.1 (append_eq_nil_iff.1 hnil).1
    · -- a text ends here, since what follows begins with no text
      rename_i htexts
      refine .cons hp (fun hkind c hc htext => htexts ?_) h
      have hhead := h.head
      rw [Option.mem_def.1 hc, Option.map_some, htext] at hhead
      rw [Piece.isText, Piece.isText, hkind, ← Option.some.inj hhead]
      rfl

/-- The pieces of a text are its parts, with neighbouring texts joined. -/
theorem splits_join (h : ∀ p ∈ ps, G.IsPiece p) :
    G.Splits (ps.flatMap Piece.code) (Piece.join ps) := by
  induction ps with
  | nil => exact .nil
  | cons p ps ih =>
    obtain ⟨hp, hps⟩ := forall_mem_cons.1 h
    exact (ih hps).joinTo hp

end MarkupGrammar

namespace Piece

variable {p : Piece} {ps : List Piece}

theorem joinTo_eq_cons (h : ∀ q ∈ ps.head?, (p.isText && q.isText) = false) :
    p.joinTo ps = p :: ps := by
  cases ps with
  | nil => rfl
  | cons q ps => rw [joinTo, h q rfl, if_neg Bool.false_ne_true]

/-- Joining makes no more pieces, and fewer if two texts meet. -/
theorem length_joinTo (p : Piece) (ps : List Piece) :
    (p.joinTo ps).length ≤ ps.length + 1 ∧
      (ps.length < (p.joinTo ps).length → ∀ q ∈ ps.head?, (p.isText && q.isText) = false) := by
  cases ps with
  | nil => exact ⟨Nat.le_refl _, fun _ q hq => by cases hq⟩
  | cons q ps =>
    rw [joinTo]
    split
    · exact ⟨Nat.le_succ _, fun h => absurd h (Nat.lt_irrefl _)⟩
    · rename_i htexts
      refine ⟨Nat.le_refl _, fun _ q' hq' => ?_⟩
      cases hq'
      exact Bool.eq_false_iff.2 htexts

theorem join_eq_nil (h : join ps = []) : ps = [] := by
  cases ps with
  | nil => rfl
  | cons p ps =>
    rw [join, foldr_cons] at h
    generalize ps.foldr joinTo [] = qs at h
    cases qs with
    | nil => cases h
    | cons q qs =>
      rw [joinTo] at h
      split at h <;> cases h

theorem join_eq_self (h : Apart isText ps) : join ps = ps := by
  induction ps with
  | nil => rfl
  | cons p ps ih =>
    obtain ⟨hp, hps⟩ := isChain_cons.1 h
    rw [join, foldr_cons, ← join, ih hps, joinTo_eq_cons hp]

/-- Joining loses a piece wherever two texts are neighbours. -/
theorem apart_of_length_le (h : ps.length ≤ (join ps).length) : Apart isText ps := by
  induction ps with
  | nil => exact .nil
  | cons p ps ih =>
    have hjoin : join (p :: ps) = p.joinTo (join ps) := rfl
    obtain ⟨hle, hapart⟩ := length_joinTo p (join ps)
    rw [hjoin, length_cons] at h
    -- `p` adds one piece at most, so that none is lost in `ps`, and `ps` is
    -- joined to itself
    have hps := ih (Nat.le_of_succ_le_succ (Nat.le_trans h hle))
    rw [join_eq_self hps] at h hapart
    exact isChain_cons.2 ⟨hapart h, hps⟩

end Piece

/-! ## Arguments -/

/-- Whether a child is printed as text. -/
def Node.isTextChild (n : Node) : Bool :=
  n.ungroup.stringValue?.any Text.isMarkupText

/-- A piece of the text between tags stands for an argument: a text for a
    string, an element for what the argument becomes, and a container for any
    other one. -/
inductive Dialect.Stands (d : Dialect) : Node → Piece → Prop
  | text {n : Node} {t : Text} (h : n.ungroup.stringValue? = some t) (ht : t.isMarkupText = true) :
    Stands d n ⟨.text, t⟩
  | container {n e : Node} {code : Text} (h : d.GivesChild n (.container e))
    (hcode : (container e).print = .ok code) : Stands d n ⟨.container, code⟩
  | element {n e : Node} {code : Text} (h : d.rebuild n = .ok e) (helement : e.isElement = true)
    (hcode : e.print = .ok code) : Stands d n ⟨.element, code⟩

/-- What a child looks like between tags. -/
def Node.pieceKind : Node → PieceKind
  | element .. => .element
  | container _ => .container
  | _ => .text

/-- The grammar takes the code of an element for an element, and that of a
    container for a container. -/
def MarkupGrammar.Reads (G : MarkupGrammar) (c : Node) : Prop :=
  c.pieceKind ≠ .text → ∀ code, c.print = .ok code → G.IsPiece ⟨c.pieceKind, code⟩

/-- A text that can stand between tags is one run of text there. -/
theorem Text.openedBy_of_isMarkupText {t : Text} (h : t.isMarkupText = true) :
    ∀ c ∈ t, PieceKind.openedBy c = .text := by
  simp only [isMarkupText, Bool.and_eq_true, Bool.not_eq_true', any_eq_false] at h
  intro c hc
  have hsafe := h.1.1.2 c hc
  simp only [CodePoint.isUnsafe, Bool.not_eq_true, Bool.or_eq_false_iff,
    beq_eq_false_iff_ne] at hsafe
  obtain ⟨⟨⟨⟨⟨⟨hopen, -⟩, hless⟩, -⟩, -⟩, -⟩, -⟩ := hsafe
  rw [PieceKind.openedBy, if_neg hopen, if_neg hless]

variable {d : Dialect} {G : MarkupGrammar} {n c : Node}

theorem Node.pieceKind_of_isElement (h : c.isElement = true) : c.pieceKind = .element := by
  obtain ⟨name, attributes, children, selfClosing, rfl⟩ := exists_of_isElement h
  rfl

namespace Dialect

/-- The code of a child stands for the argument that gives it. -/
theorem GivesChild.stands (h : d.GivesChild n c) {code : Text} (hcode : c.print = .ok code) :
    d.Stands n ⟨c.pieceKind, code⟩ := by
  obtain ⟨e, he, hc⟩ := id h
  cases hc with
  | element helement =>
    rw [pieceKind_of_isElement helement]
    exact .element he helement hcode
  | container | quoted | braced => exact .container h hcode
  | text hstring ht =>
    rw [print, (Text.escapeMarkup_of_isMarkupText ht).2] at hcode
    cases hcode
    exact .text ((rebuilds_of_rebuild he).stringValue?_ungroup ▸ hstring) ht

/-- What is printed for a child is a piece of its kind. -/
theorem GivesChild.isPiece (h : d.GivesChild n c) {code : Text}
    (hcode : c.print = .ok code) (hread : G.Reads c) : G.IsPiece ⟨c.pieceKind, code⟩ := by
  obtain ⟨e, he, hc⟩ := id h
  cases hc with
  | element helement => exact hread (by rw [pieceKind_of_isElement helement]; decide) code hcode
  | container | quoted | braced => exact hread (by rw [pieceKind]; decide) code hcode
  | text hstring ht =>
    obtain ⟨hne, hescape⟩ := Text.escapeMarkup_of_isMarkupText ht
    rw [print, hescape] at hcode
    cases hcode
    exact ⟨hne, Text.openedBy_of_isMarkupText ht⟩

theorem Stands.isText_eq {p : Piece} (h : d.Stands n p) : p.isText = n.isTextChild := by
  cases h with
  | text h ht =>
    rw [isTextChild, h, Option.any_some, ht]
    rfl
  | container h _ =>
    obtain ⟨e', he, hc⟩ := h
    rw [isTextChild, ← (rebuilds_of_rebuild he).stringValue?_ungroup]
    cases hc with
    | element h => cases h
    | container => rfl
    | quoted h ht =>
      rw [h, stringValue?, Option.any_some, ht]
      rfl
    | braced _ h =>
      rw [h]
      rfl
  | element he helement _ =>
    rw [isTextChild, ← (rebuilds_of_rebuild he).stringValue?_ungroup,
      stringValue?_of_isElement helement]
    rfl

/-- Every argument has one piece, if neighbouring texts are left apart. -/
theorem exists_pieces {es cs : List Node} {texts : List Text} (h : List.Forall₂ d.GivesChild es cs)
    (htexts : List.Forall₂ (fun c t => c.print = .ok t) cs texts) (hread : ∀ c ∈ cs, G.Reads c) :
    ∃ ps : List Piece, ps.flatMap Piece.code = texts.flatten ∧ List.Forall₂ d.Stands es ps ∧
      ∀ p ∈ ps, G.IsPiece p := by
  induction h generalizing texts with
  | nil =>
    cases htexts
    exact ⟨[], rfl, .nil, forall_mem_nil _⟩
  | @cons e c es cs hc _ ih =>
    obtain _ | ⟨hcode, htexts⟩ := htexts
    obtain ⟨hread, hreads⟩ := forall_mem_cons.1 hread
    obtain ⟨ps, hps, hstands, hpieces⟩ := ih htexts hreads
    refine ⟨⟨c.pieceKind, _⟩ :: ps, ?_, .cons (hc.stands hcode) hstands,
      forall_mem_cons.2 ⟨hc.isPiece hcode hread, hpieces⟩⟩
    rw [flatMap_cons, hps, flatten_cons]

/-- Neighbouring texts are those of neighbouring arguments. -/
theorem apart_of_forall₂_stands {es : List Node} {ps : List Piece}
    (h : List.Forall₂ d.Stands es ps) : Apart Piece.isText ps ↔ Apart isTextChild es := by
  have hmap : ps.map Piece.isText = es.map isTextChild := by
    induction h with
    | nil => rfl
    | cons hp _ ih => rw [map_cons, map_cons, hp.isText_eq, ih]
  rw [apart_iff_map, apart_iff_map, hmap]

/-- The code of children is cut into pieces for the arguments, unless two
    neighbours are texts. -/
theorem exists_split {es cs : List Node} {texts : List Text} (h : List.Forall₂ d.GivesChild es cs)
    (htexts : List.Forall₂ (fun c t => c.print = .ok t) cs texts) (hread : ∀ c ∈ cs, G.Reads c) :
    ∃ pieces, G.Splits texts.flatten pieces ∧
      (List.Forall₂ d.Stands es pieces ↔ Apart isTextChild es) ∧ (pieces = [] ↔ es = []) := by
  obtain ⟨ps, hps, hstands, hpieces⟩ := exists_pieces h htexts hread
  refine ⟨Piece.join ps, hps ▸ MarkupGrammar.splits_join hpieces,
    ⟨fun hjoin => ?_, fun hapart => ?_⟩, fun hnil => ?_, ?_⟩
  · -- one piece for each argument is as many as before they were joined
    rw [← apart_of_forall₂_stands hstands]
    exact Piece.apart_of_length_le (by rw [← hjoin.length_eq, hstands.length_eq])
  · rwa [Piece.join_eq_self ((apart_of_forall₂_stands hstands).2 hapart)]
  · obtain rfl := Piece.join_eq_nil hnil
    exact forall₂_nil_right_iff.1 hstands
  · rintro rfl
    cases hstands
    rfl

end Dialect

/-! ## The text of an element -/

/-- The children of an element. -/
def Node.content : Node → List Node
  | element _ _ children _ => children
  | _ => []

/-- An element has the children that arguments give, or else the props. -/
theorem Dialect.Makes.forall₂_content {callee : Node} {arguments : List Node} {f : Frame}
    {attrs kept : List Attribute} {children folded : List Node}
    (h : d.Makes callee arguments f attrs children folded kept) :
    List.Forall₂ d.GivesChild ((if f.children.isEmpty then Attribute.foldedChildren attrs else
      f.children).filter (!·.isVoid)) (f.toElement children folded kept).content := by
  rw [Frame.toElement, content]
  split
  · exact forall₂_asChildren h.folded
  · exact forall₂_asChildren h.children

/-- The opening tag of an element, or its only tag. -/
def Node.openingTag : Node → Printed
  | element name attributes _ selfClosing => do
    let attributes := (← printAll (attributes.map print)).flatMap fun t => CodePoint.ofChar ' ' :: t
    return Text.concat ["<", name, attributes, if selfClosing then " />" else ">"]
  | _ => .ok []

/-- The closing tag of an element, if it has one. -/
def Node.closingTag : Node → Text
  | element name _ _ selfClosing => if selfClosing then [] else Text.concat ["</", name, ">"]
  | _ => []

theorem Node.map_snd_printList (ns : List Node) : (printList ns).map (·.2) = ns.map print := by
  induction ns with
  | nil => rfl
  | cons n ns ih => rw [printList, map_cons, map_cons, ih]

/-- An element is printed as its children between its tags. -/
theorem Node.print_element {name : Text} {attributes children : List Node} {text : Text}
    (h : (element name attributes children children.isEmpty).print = .ok text) :
    ∃ opening texts, (element name attributes children children.isEmpty).openingTag = .ok opening ∧
      List.Forall₂ (fun c t => c.print = .ok t) children texts ∧ text = opening ++ texts.flatten ++
      (element name attributes children children.isEmpty).closingTag := by
  rw [print, map_snd_printList, map_snd_printList] at h
  obtain ⟨attributeTexts, hattributes, h⟩ := bind_eq_ok.1 h
  rw [openingTag, hattributes, closingTag]
  cases children with
  | nil =>
    cases h
    exact ⟨_, [], rfl, .nil, by simp [Text.concat]⟩
  | cons c children =>
    obtain ⟨texts, htexts, h⟩ := bind_eq_ok.1 h
    cases h
    refine ⟨_, texts, rfl, ?_, ?_⟩
    · exact forall₂_map_left_iff.1 (forall₂_of_mapM htexts)
    · simp [Text.concat]

/-- The children that props name. -/
def Node.propsChildren (props : Option Node) : List Node :=
  match props.map Node.attributes with
  | some (.ok attrs) => Attribute.foldedChildren attrs
  | _ => []

/-- The text between the tags of an element is cut into pieces in one way. The
    pieces stand for the arguments of the call that are not `void`, one for one,
    if and only if no two neighbours of them become texts, and if the call
    without such arguments has no children among its props. -/
theorem children_read_back_iff {G : MarkupGrammar} {d : Dialect} {callee tag element : Node}
    {rest : List Node} {o : Bool} {text : Text} (hruntime : d.runtime? callee = some .classic)
    (helement : d.element? (.call callee (tag :: rest) o) = .ok (some element))
    (hprint : element.print = .ok text) (hread : ∀ c ∈ element.content, G.Reads c) :
    ∃ opening inside pieces, element.openingTag = .ok opening ∧
      text = opening ++ inside ++ element.closingTag ∧ G.Splits inside pieces ∧
      (∀ pieces', G.Splits inside pieces' → pieces' = pieces) ∧
      (List.Forall₂ d.Stands ((rest.drop 1).filter (!·.isVoid)) pieces ↔
        Apart isTextChild ((rest.drop 1).filter (!·.isVoid)) ∧
          (rest.drop 1 = [] → (propsChildren rest.head?).all isVoid = true)) := by
  obtain ⟨f, attrs, children, folded, kept, hmakes, rfl⟩ := Dialect.element?_makes helement
  obtain ⟨runtime, hruntime', -, hprops, hchildren⟩ := Dialect.frame?_parts hmakes.frame
  cases hruntime.symm.trans hruntime'
  obtain ⟨opening, texts, hopening, htexts, htext⟩ := print_element hprint
  obtain ⟨pieces, hsplits, hstands, hnil⟩ :=
    Dialect.exists_split hmakes.forall₂_content htexts hread
  refine ⟨opening, texts.flatten, pieces, hopening, htext, hsplits, fun _ h => h.unique hsplits, ?_⟩
  rw [show f.children = rest.drop 1 from hchildren.trans drop_one.symm] at hstands hnil
  cases harguments : rest.drop 1 with
  | nil =>
    -- what stands between the tags comes from the props, and there must be nothing
    have hfolded : propsChildren rest.head? = Attribute.foldedChildren attrs := by
      have hattrs := hmakes.attributes
      rw [Frame.attributes, hprops] at hattrs
      cases hhead : rest.head? with
      | none =>
        rw [hhead] at hattrs
        cases hattrs
        rfl
      | some props =>
        rw [hhead] at hattrs
        rw [propsChildren, Option.map_some, show props.attributes = _ from hattrs]
    rw [harguments, isEmpty_nil, if_pos rfl] at hnil
    rw [hfolded, filter_nil, forall₂_nil_left_iff, hnil,
      filter_eq_nil_iff, all_eq_true]
    simp [Apart]
  | cons argument arguments =>
    rw [harguments] at hstands
    exact hstands.trans ⟨fun h => ⟨h, fun hnil => by cases hnil⟩, And.left⟩

/-- A text between two marks, of which the last one is not in it. -/
def Text.IsEnclosed (first last : CodePoint) (t : Text) : Prop :=
  ∃ body, t = first :: (body ++ [last]) ∧ last ∉ body

/-- Between its marks, no text is the beginning of another one. -/
theorem Text.IsEnclosed.eq_of_prefix {first last : CodePoint} {t u : Text}
    (ht : t.IsEnclosed first last) (hu : u.IsEnclosed first last) (h : t <+: u) : t = u := by
  obtain ⟨body, rfl, hbody⟩ := ht
  obtain ⟨body', rfl, hbody'⟩ := hu
  obtain ⟨rest, h⟩ := h
  have htake {l : Text} (hl : last ∉ l) (r : Text) : (l ++ last :: r).takeWhile (· ≠ last) = l :=
    takeWhile_run (fun c hc => ne_of_mem_of_not_mem hc hl) fun c hc =>
      not_not_intro (Option.some.inj hc).symm
  have hbodies : body ++ last :: rest = body' ++ last :: [] := by simpa using h
  rw [← htake hbody rest, hbodies, htake hbody']

/-- Markup without nesting: a container ends at the first brace, and an element
    at the first `>`. -/
def MarkupGrammar.flat : MarkupGrammar where
  IsContainer := Text.IsEnclosed ⟨0x7B, by decide⟩ ⟨0x7D, by decide⟩
  IsElement := Text.IsEnclosed '<' '>'
  container_head := by
    rintro _ ⟨body, rfl, -⟩
    rfl
  element_head := by
    rintro _ ⟨body, rfl, -⟩
    rfl
  container_eq := Text.IsEnclosed.eq_of_prefix
  element_eq := Text.IsEnclosed.eq_of_prefix

/-- `createElement(tag, null, …)` -/
def createElement (tag : Text) (children : List Node) : Node :=
  .call (.identifier "createElement")
    (.literal (.string tag) none :: .literal .null none :: children) false

/-- Two texts, with an element and a container between them. -/
theorem children_read_back_mixed :
    let children := [.literal (.string "a") none, createElement "b" [], .identifier "x",
      .unary "void" (.identifier "x"), .literal (.string "c") none]
    ∃ element inside pieces,
      (⟨{}, none⟩ : Dialect).element? (createElement "p" children) = .ok (some element) ∧
      element.print = .ok ("<p>" ++ inside ++ "</p>") ∧
      MarkupGrammar.flat.Splits inside pieces ∧
      List.Forall₂ (Dialect.Stands ⟨{}, none⟩) (children.filter (!·.isVoid)) pieces := by
  intro children
  obtain ⟨element, helement, hprint, hopening, hclosing, hcontent⟩ : ∃ element,
      (⟨{}, none⟩ : Dialect).element? (createElement "p" children) = .ok (some element) ∧
      element.print = .ok "<p>a<b />\x7bx\x7dc</p>" ∧
      element.openingTag = .ok "<p>" ∧ element.closingTag = "</p>" ∧
      element.content.map (fun c => (c.pieceKind, c.print)) =
        [(.text, .ok "a"), (.element, .ok "<b />"),
          (.container, .ok "\x7bx\x7d"), (.text, .ok (Text.ofString "c"))] :=
    Dialect.exists_element (by decide +kernel)
  have hread : ∀ c ∈ element.content, MarkupGrammar.flat.Reads c := by
    intro c hc hkind code hcode
    have hmem := mem_map_of_mem (f := fun c => (c.pieceKind, c.print)) hc
    simp only [hcontent, hcode, mem_cons, Prod.mk.injEq, Except.ok.injEq,
      not_mem_nil, or_false] at hmem
    obtain ⟨h, -⟩ | ⟨h, rfl⟩ | ⟨h, rfl⟩ | ⟨h, -⟩ := hmem
    · exact absurd h hkind
    · rw [h]
      exact ⟨"b /", rfl, by decide⟩
    · rw [h]
      exact ⟨"x", rfl, by decide⟩
    · exact absurd h hkind
  obtain ⟨opening, inside, pieces, hopening', htext, hsplits, -, hstands⟩ :=
    children_read_back_iff (by decide +kernel) helement hprint hread
  cases hopening.symm.trans hopening'
  refine ⟨element, inside, pieces, helement, by rw [hprint, htext, hclosing], hsplits,
    hstands.2 ⟨by decide +kernel, fun h => by cases h⟩⟩

/-- `createElement("p", null, "a", "b")`: the two texts are read as one. -/
theorem neighbouring_texts_read_as_one :
    let children := [.literal (.string "a") none, .literal (.string "b") none]
    (∃ element, (⟨{}, none⟩ : Dialect).element? (createElement "p" children) = .ok (some element) ∧
      element.print = .ok "<p>ab</p>") ∧
      ∀ (G : MarkupGrammar) pieces, G.Splits "ab" pieces → pieces = [⟨.text, "ab"⟩] ∧
        ¬List.Forall₂ (Dialect.Stands ⟨{}, none⟩) (children.filter (!·.isVoid)) pieces := by
  refine ⟨Dialect.exists_element (by decide +kernel), fun G pieces h => ?_⟩
  have hab : G.Splits "ab" [⟨.text, "ab"⟩] :=
    .cons (p := ⟨.text, "ab"⟩) ⟨by decide, Text.openedBy_of_isMarkupText (by decide +kernel)⟩
      (fun _ c hc => by cases hc) .nil
  obtain rfl := h.unique hab
  refine ⟨rfl, fun hstands => ?_⟩
  cases hstands.length_eq

end Resugar
