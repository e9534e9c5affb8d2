import MiniSmalltalk.Proofs.Grammar.Derivation

/-! # Building trees

Readers build a tree by adding one node after the other. The results are the trees that
derivations write down whole. -/

namespace MiniSmalltalk

namespace Node

theorem children_of_isLeaf {node : Node} (h : node.isLeaf = true) : node.children = [] := by
  simpa [isLeaf] using h

theorem append_of_isLeaf_false {node : Node} (h : node.isLeaf = false) (child : Node) :
    node.append child =
      ⟨node.kind, node.text, node.children ++ [some child], node.span.merge child.span⟩ := by
  simp [append, spanWith, h]

theorem appendAll_of_isLeaf_false {node : Node} (h : node.isLeaf = false) (parts : List Node) :
    node.appendAll parts = ⟨node.kind, node.text, node.children ++ parts.map some,
      parts.foldl (fun span part => span.merge part.span) node.span⟩ := by
  induction parts generalizing node with
  | nil =>
      cases node
      simp [appendAll]
  | cons part parts ih =>
      have hstep := ih (isLeaf_append node part)
      rw [appendAll] at hstep ⊢
      rw [List.foldl_cons, hstep, append_of_isLeaf_false h]
      simp

/-- Adding parts one by one composes them. -/
theorem appendAll_bare {kind : Kind} (hk : kind.isToken = false) (span : Span) {parts : List Node}
    (hp : parts ≠ []) : (bare kind span).appendAll parts = compose kind parts := by
  obtain ⟨first, others, rfl⟩ := List.exists_cons_of_ne_nil hp
  have hstep := appendAll_of_isLeaf_false (isLeaf_append (bare kind span) first) others
  rw [appendAll] at hstep ⊢
  rw [List.foldl_cons, hstep]
  simp [append, spanWith, bare, isLeaf, hk, compose, cover]

theorem append_eq_atop {token : Node} (hk : token.kind.isToken = true) (hl : token.isLeaf = true)
    (child : Node) : token.append child = token.atop [child] := by
  simp [append, spanWith, hk, atop, cover, children_of_isLeaf hl]

theorem append_append_eq_atop {token : Node} (hk : token.kind.isToken = true)
    (hl : token.isLeaf = true) (first second : Node) :
    (token.append first).append second = token.atop [first, second] := by
  rw [append_of_isLeaf_false (isLeaf_append token first), append_eq_atop hk hl]
  simp [atop, cover]

theorem cover_append_singleton {nodes : List Node} (hn : nodes ≠ []) (node : Node) :
    cover (nodes ++ [node]) = (cover nodes).merge node.span := by
  obtain ⟨first, others, rfl⟩ := List.exists_cons_of_ne_nil hn
  simp [cover]

theorem textOrEmpty_joined {segments : List Node} :
    (joined segments).textOrEmpty = String.join (segments.map textOrEmpty) := by
  match segments with
  | [] => rfl
  | [only] => simp [joined, textOrEmpty, selectorText]
  | first :: second :: others => rfl

theorem selectorText_append_singleton {segments : List Node} (hs : segments ≠ []) (segment : Node) :
    selectorText (segments ++ [segment]) =
      some (String.join (segments.map textOrEmpty) ++ segment.textOrEmpty) := by
  obtain ⟨first, others, rfl⟩ := List.exists_cons_of_ne_nil hs
  cases others <;> simp [selectorText, String.append_assoc]

end Node

namespace Grammar

theorem addSegment_joined {segments : List Node} (hs : segments ≠ []) (selector argument : Node) :
    addSegment (.joined segments) (selector, argument) =
      .joined (segments ++ [selector.atop [argument]]) := by
  have hspan : (selector.atop [argument]).span = selector.span.merge argument.span := rfl
  have hj : Node.joined (segments ++ [selector.atop [argument]]) =
      ⟨.keyword, some (String.join (segments.map Node.textOrEmpty) ++ selector.textOrEmpty),
        segments.flatMap Node.children ++ [some argument],
        (Node.cover segments).merge (selector.span.merge argument.span)⟩ := by
    rw [Node.joined, Node.selectorText_append_singleton hs, Node.cover_append_singleton hs, hspan]
    simp [Node.atop, Node.textOrEmpty]
  rw [hj, addSegment, Node.textOrEmpty_joined]
  simp [Node.append, Node.spanWith, Node.joined, Kind.isToken, Span.merge_assoc]

theorem foldl_addSegment (pairs : List (Node × Node)) {segments : List Node} (hs : segments ≠ []) :
    pairs.foldl addSegment (.joined segments) =
      .joined (segments ++ pairs.map fun pair => pair.1.atop [pair.2]) := by
  induction pairs generalizing segments with
  | nil => simp
  | cons pair pairs ih =>
      rw [List.foldl_cons, addSegment_joined hs, ih (by simp)]
      simp

theorem joined_singleton {selector argument : Node} (h : Terminal .keyword selector) :
    Node.joined [selector.atop [argument]] = selector.append argument := by
  rw [Node.append_eq_atop (by rw [h.kind_eq]; rfl) h.leaf]
  simp [Node.joined, Node.selectorText, Node.atop, Node.cover, h.kind_eq]

theorem sequence_cons (first : Node) (others : List Node) :
    sequence (first :: others) = some (.statementsOf (first :: others)) := by
  cases others with
  | nil => rfl
  | cons second others => exact congrArg some (Node.appendAll_bare rfl .origin (by simp))

theorem negative_eq {minus token : Node} (h : Terminal .integer token) :
    negative minus token =
      ⟨.integer, some ("-" ++ token.textOrEmpty), [], Node.cover [minus, token]⟩ := by
  simp [negative, h.kind_eq, Node.children_of_isLeaf h.leaf, Node.cover]

theorem appendAll_bare_enclose {kind : Kind} (hk : kind.isToken = false) (span : Span)
    (opening closing : Node) (parts : List Node) :
    { (Node.bare kind span).appendAll parts with span := opening.span.merge closing.span } =
      Node.enclose kind opening closing parts := by
  by_cases hp : parts = []
  · subst hp
    rfl
  · rw [Node.appendAll_bare hk span hp]
    rfl

end Grammar

end MiniSmalltalk
