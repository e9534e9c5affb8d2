import MiniSmalltalk.Proofs.Grammar.Derivation
import MiniSmalltalk.Proofs.Tree.Relocation

/-! # Layout

What tokens derive from depends on their kinds and texts and not on where they stand: tokens that
are laid out differently derive from the same phrase, with the same tree up to positions. -/

namespace MiniSmalltalk

namespace Node

@[simp] theorem placeless_kind (node : Node) : node.placeless.kind = node.kind := by
  simp [placeless]

@[simp] theorem placeless_text (node : Node) : node.placeless.text = node.text := by
  simp [placeless]

@[simp] theorem placeless_span (node : Node) : node.placeless.span = .origin := by
  simp [placeless]

@[simp] theorem placeless_children (node : Node) :
    node.placeless.children = node.children.map (Option.map placeless) := by
  rw [placeless, relocate_children]
  rfl

@[simp] theorem placeless_textOrEmpty (node : Node) :
    node.placeless.textOrEmpty = node.textOrEmpty := by
  simp [placeless]

@[simp] theorem placeless_isLeaf (node : Node) : node.placeless.isLeaf = node.isLeaf := by
  simp [placeless]

/-- Trees that are the same up to positions have the same children up to positions. -/
theorem exists_child_of_placeless {laid tree child : Node} (h : laid.placeless = tree.placeless)
    {index : Nat} (hc : tree.child? index = some child) :
    ∃ other, laid.child? index = some other ∧ other.placeless = child.placeless := by
  have hslot := congrArg (child? · index) h
  simp only [placeless, relocate_child?, hc, Option.map_some] at hslot
  exact Option.map_eq_some_iff.mp hslot

theorem cover_placeless (parts : List Node) : cover (parts.map placeless) = .origin := by
  cases parts with
  | nil => rfl
  | cons first others =>
      simp only [List.map_cons, cover, placeless_span]
      induction others with
      | nil => rfl
      | cons second others ih => simpa using ih

theorem compose_placeless (kind : Kind) (parts : List Node) :
    (compose kind parts).placeless = compose kind (parts.map placeless) := by
  refine eq_of_parts (by simp [compose]) (by simp [compose]) ?_ ?_
  · simp [compose, Function.comp_def]
  · simp [compose, cover_placeless]

theorem atop_placeless (token : Node) (parts : List Node) :
    (token.atop parts).placeless = token.placeless.atop (parts.map placeless) := by
  refine eq_of_parts (by simp [atop]) (by simp [atop]) ?_ ?_
  · simp [atop, Function.comp_def]
  · have hcover := cover_placeless (token :: parts)
    rw [List.map_cons] at hcover
    simp [atop, hcover]

theorem enclose_placeless (kind : Kind) (opening closing : Node) (parts : List Node) :
    (enclose kind opening closing parts).placeless =
      enclose kind opening.placeless closing.placeless (parts.map placeless) := by
  refine eq_of_parts (by simp [enclose]) (by simp [enclose]) ?_ ?_
  · simp [enclose, Function.comp_def]
  · simp [enclose]

theorem selectorText_placeless (segments : List Node) :
    selectorText (segments.map placeless) = selectorText segments := by
  match segments with
  | [] => rfl
  | [only] => simp [selectorText]
  | first :: second :: others => simp [selectorText, Function.comp_def]

theorem joined_placeless (segments : List Node) :
    (joined segments).placeless = joined (segments.map placeless) := by
  refine eq_of_parts (by simp [joined]) ?_ ?_ ?_
  · simp [joined, selectorText_placeless]
  · simp [joined, List.flatMap_map, List.map_flatMap]
  · simp [joined, cover_placeless]

theorem keywordPart_placeless (segments : List Node) :
    (keywordPart segments).map placeless = keywordPart (segments.map placeless) := by
  cases segments with
  | nil => rfl
  | cons first others => simp [keywordPart, joined_placeless]

theorem statementsOf_placeless (parts : List Node) :
    (statementsOf parts).placeless = statementsOf (parts.map placeless) := by
  match parts with
  | [] => exact compose_placeless .statements []
  | [only] => rfl
  | first :: second :: others => exact compose_placeless .statements (first :: second :: others)

end Node

namespace Grammar

/-- The same tokens, laid out differently. -/
def Alike (tokens others : List Node) : Prop :=
  others.map Node.placeless = tokens.map Node.placeless

/-! ### Taking layouts apart -/

theorem Alike.cons_inv {token : Node} {tokens others : List Node}
    (h : Alike (token :: tokens) others) :
    ∃ other rest, others = other :: rest ∧ other.placeless = token.placeless ∧
      Alike tokens rest := by
  obtain ⟨other, rest, rfl, hother, hrest⟩ := List.map_eq_cons_iff.mp h
  exact ⟨other, rest, rfl, hother, hrest⟩

theorem Alike.append_inv {front back others : List Node} (h : Alike (front ++ back) others) :
    ∃ first second, others = first ++ second ∧ Alike front first ∧ Alike back second := by
  rw [Alike, List.map_append] at h
  obtain ⟨first, second, rfl, hfirst, hsecond⟩ := List.map_eq_append_iff.mp h
  exact ⟨first, second, rfl, hfirst, hsecond⟩

theorem Alike.nil_inv {others : List Node} (h : Alike [] others) : others = [] := by
  simpa [Alike] using h

theorem Alike.singleton_inv {token : Node} {others : List Node} (h : Alike [token] others) :
    ∃ other, others = [other] ∧ other.placeless = token.placeless := by
  obtain ⟨other, rest, rfl, hother, hrest⟩ := h.cons_inv
  obtain rfl := hrest.nil_inv
  exact ⟨other, rfl, hother⟩

theorem Terminal.relaid {kind : Kind} {token other : Node} (h : Terminal kind token)
    (ha : other.placeless = token.placeless) : Terminal kind other := by
  have hkind := congrArg Node.kind ha
  have hleaf := congrArg Node.isLeaf ha
  simp only [Node.placeless_kind, Node.placeless_isLeaf] at hkind hleaf
  exact ⟨hkind.trans h.kind_eq, hleaf.trans h.leaf⟩

theorem Selector.relaid {text : String} {token other : Node} (h : Selector text token)
    (ha : other.placeless = token.placeless) : Selector text other := by
  have htext := congrArg Node.textOrEmpty ha
  simp only [Node.placeless_textOrEmpty] at htext
  exact ⟨h.toTerminal.relaid ha, htext.trans h.text_eq⟩

theorem Alike.terminals {kind : Kind} {tokens others : List Node} (h : Alike tokens others)
    (ht : ∀ token ∈ tokens, Terminal kind token) : ∀ other ∈ others, Terminal kind other := by
  intro other hm
  have hmem : other.placeless ∈ tokens.map Node.placeless := h ▸ List.mem_map_of_mem hm
  obtain ⟨token, htoken, ha⟩ := List.mem_map.mp hmem
  exact (ht token htoken).relaid ha.symm

theorem Alike.ne_nil {tokens others : List Node} (h : Alike tokens others) (hne : tokens ≠ []) :
    others ≠ [] := by
  rintro rfl
  exact hne (by simpa [Alike] using h.symm)

/-- Tokens of a language can be laid out differently, with the same value up to positions. -/
def Relays (language : List Node → Node → Prop) (tokens : List Node) (value : Node) : Prop :=
  ∀ others, Alike tokens others →
    ∃ other, language others other ∧ other.placeless = value.placeless

theorem Alike.pieces {language : List Node → Node → Prop} {pieces : List (Piece Node)}
    (hp : ∀ piece ∈ pieces, Relays language piece.tokens piece.value) {others : List Node}
    (h : Alike (Piece.tokensOf pieces) others) :
    ∃ relaid : List (Piece Node), others = Piece.tokensOf relaid ∧
      (∀ piece ∈ relaid, language piece.tokens piece.value) ∧
      Alike (Piece.values pieces) (Piece.values relaid) := by
  induction pieces generalizing others with
  | nil => exact ⟨[], h.nil_inv, by simp, rfl⟩
  | cons piece pieces ih =>
      obtain ⟨first, second, rfl, hfirst, hsecond⟩ := h.append_inv
      obtain ⟨value, hl, hvalue⟩ := hp piece (by simp) first hfirst
      obtain ⟨relaid, rfl, hrelaid, hvalues⟩ := ih (fun other hm => hp other (by simp [hm])) hsecond
      refine ⟨⟨first, value⟩ :: relaid, rfl, List.forall_mem_cons.mpr ⟨hl, hrelaid⟩, ?_⟩
      rw [Alike, Piece.values_cons, Piece.values_cons, List.map_cons, List.map_cons, hvalue,
        hvalues]

theorem Alike.pieces_ne_nil {pieces relaid : List (Piece Node)}
    (h : Alike (Piece.values pieces) (Piece.values relaid)) (hne : pieces ≠ []) : relaid ≠ [] := by
  rintro rfl
  exact hne (by simpa [Alike, Piece.values] using h.symm)

theorem Alike.optionalPiece {language : List Node → Node → Prop} {piece : Option (Piece Node)}
    (hp : ∀ found ∈ piece, Relays language found.tokens found.value) {others : List Node}
    (h : Alike (Piece.tokensOf piece.toList) others) :
    ∃ relaid : Option (Piece Node), others = Piece.tokensOf relaid.toList ∧
      (∀ found ∈ relaid, language found.tokens found.value) ∧
      Alike (Piece.values piece.toList) (Piece.values relaid.toList) := by
  cases piece with
  | none => exact ⟨none, h.nil_inv, by simp, rfl⟩
  | some piece =>
      obtain ⟨value, hl, hvalue⟩ := hp piece rfl others (by simpa using h)
      refine ⟨some ⟨others, value⟩, by simp, ?_, ?_⟩
      · rintro found ⟨⟩
        exact hl
      · simp [Alike, hvalue]

theorem Alike.append {front front' back back' : List Node} (h : Alike front front')
    (h' : Alike back back') : Alike (front ++ back) (front' ++ back') := by
  rw [Alike, List.map_append, List.map_append, h, h']

theorem Alike.cons {token other : Node} {tokens others : List Node}
    (h : other.placeless = token.placeless) (h' : Alike tokens others) :
    Alike (token :: tokens) (other :: others) := by
  rw [Alike, List.map_cons, List.map_cons, h, h']

/-! ### Phrases -/

theorem Optionally.relaid {kind : Kind} {tokens others : List Node} (h : Optionally kind tokens)
    (ha : Alike tokens others) : Optionally kind others := by
  cases h with
  | absent =>
      obtain rfl := ha.nil_inv
      exact .absent
  | present ht =>
      obtain ⟨other, rfl, hother⟩ := ha.singleton_inv
      exact .present (ht.relaid hother)

theorem Parameters.relaid {tokens arguments others : List Node} (h : Parameters tokens arguments)
    (ha : Alike tokens others) :
    ∃ arguments', Parameters others arguments' ∧ Alike arguments arguments' := by
  cases h with
  | absent =>
      obtain rfl := ha.nil_inv
      exact ⟨[], .absent, rfl⟩
  | @present pieces bar hne hp hb =>
      have hparameter : ∀ piece ∈ pieces, Relays Parameter piece.tokens piece.value := by
        intro piece hm
        have hread := hp piece hm
        generalize piece.tokens = words, piece.value = name at hread
        cases hread with
        | mk hc hn =>
            intro others ha
            obtain ⟨colon, rest, rfl, hcolon, hrest⟩ := ha.cons_inv
            obtain ⟨other, rfl, hother⟩ := hrest.singleton_inv
            exact ⟨other, .mk (hc.relaid hcolon) (hn.relaid hother), hother⟩
      obtain ⟨first, second, rfl, hfirst, hsecond⟩ := ha.append_inv
      obtain ⟨relaid, rfl, hrelaid, hvalues⟩ := hfirst.pieces hparameter
      obtain ⟨bar', rfl, hbar⟩ := hsecond.singleton_inv
      refine ⟨_, .present (hvalues.pieces_ne_nil hne) hrelaid (hb.relaid hbar), ?_⟩
      rw [Alike, List.map_singleton, List.map_singleton, Node.compose_placeless,
        Node.compose_placeless, hvalues]

theorem Temporaries.relaid {tokens names others : List Node} (h : Temporaries tokens names)
    (ha : Alike tokens others) : ∃ names', Temporaries others names' ∧ Alike names names' := by
  cases h with
  | absent =>
      obtain rfl := ha.nil_inv
      exact ⟨[], .absent, rfl⟩
  | none ho hc =>
      obtain ⟨opening, rest, rfl, hopening, hrest⟩ := ha.cons_inv
      obtain ⟨closing, rfl, hclosing⟩ := hrest.singleton_inv
      exact ⟨[], .none (ho.relaid hopening) (hc.relaid hclosing), rfl⟩
  | present hne ho hn hc =>
      obtain ⟨opening, rest, rfl, hopening, hrest⟩ := ha.cons_inv
      obtain ⟨declared, last, rfl, hdeclared, hlast⟩ := hrest.append_inv
      obtain ⟨closing, rfl, hclosing⟩ := hlast.singleton_inv
      refine ⟨_, .present (hdeclared.ne_nil hne) (ho.relaid hopening) (hdeclared.terminals hn)
        (hc.relaid hclosing), ?_⟩
      rw [Alike, List.map_singleton, List.map_singleton, Node.enclose_placeless,
        Node.enclose_placeless, hopening, hclosing, hdeclared]

namespace Relays

variable {kind : Kind} {language wider : List Node → Node → Prop} {token value : Node}
  {tokens : List Node}

theorem terminal (build : ∀ {other}, Terminal kind other → language [other] other)
    (h : Terminal kind token) : Relays language [token] token := by
  intro others ha
  obtain ⟨other, rfl, hother⟩ := ha.singleton_inv
  exact ⟨other, build (h.relaid hother), hother⟩

/-- A token in front that leaves no trace in the tree. -/
theorem behind
    (build : ∀ {other words tree}, Terminal kind other → language words tree →
      wider (other :: words) tree)
    (ht : Terminal kind token) (h : Relays language tokens value) :
    Relays wider (token :: tokens) value := by
  intro others ha
  obtain ⟨other, words, rfl, hother, hwords⟩ := ha.cons_inv
  obtain ⟨tree, hd, htree⟩ := h words hwords
  exact ⟨tree, build (ht.relaid hother) hd, htree⟩

/-- A token in front that becomes the parent of the tree. -/
theorem atop
    (build : ∀ {other words tree}, Terminal kind other → language words tree →
      wider (other :: words) (other.atop [tree]))
    (ht : Terminal kind token) (h : Relays language tokens value) :
    Relays wider (token :: tokens) (token.atop [value]) := by
  intro others ha
  obtain ⟨other, words, rfl, hother, hwords⟩ := ha.cons_inv
  obtain ⟨tree, hd, htree⟩ := h words hwords
  refine ⟨_, build (ht.relaid hother) hd, ?_⟩
  simp only [Node.atop_placeless, List.map_singleton, hother, htree]

end Relays

/-- Tokens that are laid out differently have the same tree up to positions. -/
theorem Derivation.relaid {phrase : Phrase} {tokens : List Node} {tree : Node}
    (h : Derivation phrase tokens tree) : Relays (Derivation phrase) tokens tree := by
  induction h with
  | answer hc _ hl ih =>
      intro others ha
      obtain ⟨caret, rest, rfl, hcaret, hrest⟩ := ha.cons_inv
      obtain ⟨words, last, rfl, hwords, hlast⟩ := hrest.append_inv
      obtain ⟨tree, hd, htree⟩ := ih words hwords
      refine ⟨_, .answer (hc.relaid hcaret) hd (hl.relaid hlast), ?_⟩
      simp only [Node.atop_placeless, List.map_singleton, hcaret, htree]
  | statements _ _ hl ihf iho =>
      intro others ha
      obtain ⟨words, rest, rfl, hwords, hrest⟩ := ha.append_inv
      obtain ⟨middle, last, rfl, hmiddle, hlast⟩ := hrest.append_inv
      obtain ⟨first, hd, hfirst⟩ := ihf words hwords
      obtain ⟨relaid, rfl, hrelaid, hvalues⟩ := hmiddle.pieces iho
      refine ⟨_, .statements hd hrelaid (hl.relaid hlast), ?_⟩
      rw [Node.statementsOf_placeless, Node.statementsOf_placeless, Alike.cons hfirst hvalues]
  | nextStatement hdot _ ih => exact .behind .nextStatement hdot ih
  | assignment hn hs _ ih =>
      intro others ha
      obtain ⟨name, rest, rfl, hname, hrest⟩ := ha.cons_inv
      obtain ⟨sign, words, rfl, hsign, hwords⟩ := hrest.cons_inv
      obtain ⟨tree, htree, heq⟩ := ih words hwords
      refine ⟨_, .assignment (hn.relaid hname) (hs.relaid hsign) htree, ?_⟩
      simp only [Node.atop_placeless, List.map_cons, List.map_nil, hname, hsign, heq]
  | send _ _ _ ihr ihrun ihc =>
      intro others ha
      obtain ⟨words, rest, rfl, hwords, hrest⟩ := ha.append_inv
      obtain ⟨middle, last, rfl, hmiddle, hlast⟩ := hrest.append_inv
      obtain ⟨receiver, hd, hreceiver⟩ := ihr words hwords
      obtain ⟨run, rfl, hrun, hruns⟩ := hmiddle.optionalPiece ihrun
      obtain ⟨relaid, rfl, hrelaid, hvalues⟩ := hlast.pieces ihc
      refine ⟨_, .send hd hrun hrelaid, ?_⟩
      rw [Node.compose_placeless, Node.compose_placeless,
        Alike.cons hreceiver (hruns.append hvalues)]
  | cascade hs _ ih => exact .behind .cascade hs ih
  | @messages unary binary segments hu _ _ hne ihb ihs =>
      intro others ha
      obtain ⟨names, rest, rfl, hnames, hrest⟩ := ha.append_inv
      obtain ⟨middle, last, rfl, hmiddle, hlast⟩ := hrest.append_inv
      obtain ⟨binary', rfl, hbinary, hbinaries⟩ := hmiddle.pieces ihb
      obtain ⟨segments', rfl, hsegment, hsegments⟩ := hlast.pieces ihs
      have hne' : names ≠ [] ∨ binary' ≠ [] ∨ segments' ≠ [] :=
        hne.imp hnames.ne_nil (Or.imp hbinaries.pieces_ne_nil hsegments.pieces_ne_nil)
      refine ⟨_, .messages (hnames.terminals hu) hbinary hsegment hne', ?_⟩
      have hkeyword : Alike (Node.keywordPart (Piece.values segments))
          (Node.keywordPart (Piece.values segments')) := by
        rw [Alike, Node.keywordPart_placeless, Node.keywordPart_placeless, hsegments]
      rw [Node.compose_placeless, Node.compose_placeless,
        hnames.append (hbinaries.append hkeyword)]
  | binaryMessage hs _ ih => exact .atop .binaryMessage hs ih
  | keywordSegment hs _ ih => exact .atop .keywordSegment hs ih
  | name ht => exact .terminal .name ht
  | integer ht => exact .terminal .integer ht
  | negative hm ht =>
      intro others ha
      obtain ⟨minus, rest, rfl, hminus, hrest⟩ := ha.cons_inv
      obtain ⟨other, rfl, hother⟩ := hrest.singleton_inv
      refine ⟨_, .negative (hm.relaid hminus) (ht.relaid hother), ?_⟩
      have htext := congrArg Node.textOrEmpty hother
      simp only [Node.placeless_textOrEmpty] at htext
      exact Node.eq_of_parts (by simp) (by simp [htext]) (by simp) (by simp)
  | string ht => exact .terminal .string ht
  | block ho hpar htmp _ hc ih =>
      intro others ha
      obtain ⟨opening, rest, rfl, hopening, hrest⟩ := ha.cons_inv
      obtain ⟨words, rest, rfl, hwords, hrest⟩ := hrest.append_inv
      obtain ⟨words', rest, rfl, hwords', hrest⟩ := hrest.append_inv
      obtain ⟨middle, last, rfl, hmiddle, hlast⟩ := hrest.append_inv
      obtain ⟨closing, rfl, hclosing⟩ := hlast.singleton_inv
      obtain ⟨arguments, hpar', harguments⟩ := hpar.relaid hwords
      obtain ⟨names, htmp', hnames⟩ := htmp.relaid hwords'
      obtain ⟨body, rfl, hbody, hbodies⟩ := hmiddle.optionalPiece ih
      refine ⟨_, .block (ho.relaid hopening) hpar' htmp' hbody (hc.relaid hclosing), ?_⟩
      rw [Node.enclose_placeless, Node.enclose_placeless, hopening, hclosing,
        harguments.append (hnames.append hbodies)]
  | parenthesised ho _ hc ih =>
      intro others ha
      obtain ⟨opening, rest, rfl, hopening, hrest⟩ := ha.cons_inv
      obtain ⟨words, last, rfl, hwords, hlast⟩ := hrest.append_inv
      obtain ⟨closing, rfl, hclosing⟩ := hlast.singleton_inv
      obtain ⟨tree, hd, htree⟩ := ih words hwords
      exact ⟨tree, .parenthesised (ho.relaid hopening) hd (hc.relaid hclosing), htree⟩

end Grammar

end MiniSmalltalk
