import MiniSmalltalk.Proofs.Grammar.Heredity
import MiniSmalltalk.Proofs.Grammar.Parsing
import MiniSmalltalk.Proofs.Token.Tiling

/-! # Nested spans

The parts of a construct lie one behind the other on the tokens they are built from. So the spans
of a tree are nested as its nodes are, and all of them begin and end with tokens. -/

namespace MiniSmalltalk

/-! ### Spans -/

namespace Span

structure Inside (inner outer : Span) : Prop where
  start : outer.start ≤ inner.start
  stop : inner.stop ≤ outer.stop

/-- A span that covers something, begins where one of the nodes begins and ends where one ends. -/
structure BoundedBy (nodes : List Node) (span : Span) : Prop where
  proper : span.start < span.stop
  first : ∃ node ∈ nodes, node.span.start = span.start
  last : ∃ node ∈ nodes, node.span.stop = span.stop

theorem Inside.trans {inner middle outer : Span} (h : inner.Inside middle)
    (h' : middle.Inside outer) : inner.Inside outer :=
  ⟨Nat.le_trans h'.start h.start, Nat.le_trans h.stop h'.stop⟩

theorem region_inside (outer : Span) : Region fun span => span.Inside outer := by
  constructor
  intro a b ha hb
  exact ⟨Nat.le_min.mpr ⟨ha.start, hb.start⟩, Nat.max_le.mpr ⟨ha.stop, hb.stop⟩⟩

theorem region_boundedBy (nodes : List Node) : Region (BoundedBy nodes) := by
  constructor
  intro a b ha hb
  refine ⟨?_, ?_, ?_⟩
  · have hproper := ha.proper
    simp only [merge_start, merge_stop]
    omega
  · rcases Nat.le_total a.start b.start with hle | hle
    · simpa [Nat.min_eq_left hle] using ha.first
    · simpa [Nat.min_eq_right hle] using hb.first
  · rcases Nat.le_total a.stop b.stop with hle | hle
    · simpa [Nat.max_eq_right hle] using hb.last
    · simpa [Nat.max_eq_left hle] using ha.last

theorem BoundedBy.mono {nodes others : List Node} {span : Span} (h : span.BoundedBy nodes)
    (hm : ∀ node ∈ nodes, node ∈ others) : span.BoundedBy others := by
  obtain ⟨first, hfirst, hstart⟩ := h.first
  obtain ⟨last, hlast, hstop⟩ := h.last
  exact ⟨h.proper, ⟨first, hm first hfirst, hstart⟩, ⟨last, hm last hlast, hstop⟩⟩

theorem BoundedBy.inside {nodes : List Node} {span outer : Span} (h : span.BoundedBy nodes)
    (hn : ∀ node ∈ nodes, node.span.Inside outer) : span.Inside outer := by
  obtain ⟨first, hfirst, hstart⟩ := h.first
  obtain ⟨last, hlast, hstop⟩ := h.last
  exact ⟨hstart ▸ (hn first hfirst).start, hstop ▸ (hn last hlast).stop⟩

end Span

namespace Node

/-- A node ends where another one begins, or in front of it. -/
def Before (first second : Node) : Prop := first.span.stop ≤ second.span.start

theorem inside_cover {nodes : List Node} : ∀ node ∈ nodes, node.span.Inside (cover nodes) := by
  have hfold : ∀ (others : List Node) (span : Span),
      span.Inside (others.foldl (fun span node => span.merge node.span) span) ∧
        ∀ node ∈ others,
          node.span.Inside (others.foldl (fun span node => span.merge node.span) span) := by
    intro others
    induction others with
    | nil => exact fun span => ⟨⟨Nat.le_refl _, Nat.le_refl _⟩, by simp⟩
    | cons other others ih =>
        intro span
        obtain ⟨hmerged, hothers⟩ := ih (span.merge other.span)
        have hspan : span.Inside (span.merge other.span) :=
          ⟨Nat.min_le_left _ _, Nat.le_max_left _ _⟩
        have hother : other.span.Inside (span.merge other.span) :=
          ⟨Nat.min_le_right _ _, Nat.le_max_right _ _⟩
        exact ⟨hspan.trans hmerged, List.forall_mem_cons.mpr ⟨hother.trans hmerged, hothers⟩⟩
  cases nodes with
  | nil => simp
  | cons first others => exact List.forall_mem_cons.mpr (hfold others first.span)

end Node

namespace Grammar

/-! ### Parts on tokens -/

/-- Tokens that cover something, each behind the one before it. -/
structure InOrder (tokens : List Node) : Prop where
  proper : ∀ token ∈ tokens, token.span.start < token.span.stop
  ordered : tokens.Pairwise Node.Before

namespace InOrder

variable {tokens front back : List Node}

theorem sublist (h : InOrder tokens) (hs : front.Sublist tokens) : InOrder front :=
  ⟨fun token hm => h.proper token (hs.subset hm), h.ordered.sublist hs⟩

theorem left (h : InOrder (front ++ back)) : InOrder front :=
  h.sublist (List.sublist_append_left front back)

theorem right (h : InOrder (front ++ back)) : InOrder back :=
  h.sublist (List.sublist_append_right front back)

/-- What is bounded by tokens in front ends before what is bounded by tokens behind them. -/
theorem before (h : InOrder (front ++ back)) {first second : Node}
    (hf : first.span.BoundedBy front) (hs : second.span.BoundedBy back) : first.Before second := by
  obtain ⟨last, hlast, hstop⟩ := hf.last
  obtain ⟨next, hnext, hstart⟩ := hs.first
  have hle : last.span.stop ≤ next.span.start :=
    (List.pairwise_append.mp h.ordered).2.2 last hlast next hnext
  unfold Node.Before
  omega

/-- The first and the last of several tokens enclose all of them. -/
theorem inside {opening closing : Node} (h : InOrder (opening :: (tokens ++ [closing]))) :
    ∀ token ∈ opening :: (tokens ++ [closing]),
      token.span.Inside ⟨opening.span.start, closing.span.stop⟩ := by
  have hopening := h.proper opening (by simp)
  have hclosing := h.proper closing (by simp)
  obtain ⟨hbehind, hrest⟩ := List.pairwise_cons.mp h.ordered
  have hends : opening.span.stop ≤ closing.span.start := hbehind closing (by simp)
  refine List.forall_mem_cons.mpr ⟨⟨Nat.le_refl _, ?_⟩, List.forall_mem_append.mpr ⟨?_, ?_⟩⟩
  · simp only
    omega
  · intro token hm
    have hstart : opening.span.stop ≤ token.span.start := hbehind token (by simp [hm])
    have hstop : token.span.stop ≤ closing.span.start :=
      (List.pairwise_append.mp hrest).2.2 token hm closing (by simp)
    refine ⟨?_, ?_⟩ <;> simp only <;> omega
  · refine List.forall_mem_singleton.mpr ⟨?_, Nat.le_refl _⟩
    simp only
    omega

theorem merge_eq {opening closing : Node} (h : InOrder (opening :: (tokens ++ [closing]))) :
    opening.span.merge closing.span = ⟨opening.span.start, closing.span.stop⟩ := by
  have hopening := (h.inside opening (by simp)).stop
  have hclosing := (h.inside closing (by simp)).start
  simp only at hopening hclosing
  simp [Span.merge, Nat.min_eq_left hclosing, Nat.max_eq_right hopening]

end InOrder

/-- Nodes lie one behind the other on tokens, each bounded by a stretch of its own. -/
inductive Spread : List Node → List Node → Prop where
  | nil (tokens : List Node) : Spread tokens []
  | cons {front back parts : List Node} {part : Node} : part.span.BoundedBy front →
      Spread back parts → Spread (front ++ back) (part :: parts)

namespace Spread

variable {tokens front back parts others : List Node}

theorem behind (h : Spread back parts) (front : List Node) : Spread (front ++ back) parts := by
  cases h with
  | nil => exact .nil _
  | @cons first rest _ _ hpart hothers =>
      rw [← List.append_assoc]
      exact .cons (hpart.mono fun node hm => List.mem_append_right _ hm) hothers

theorem append (h : Spread front parts) (h' : Spread back others) :
    Spread (front ++ back) (parts ++ others) := by
  induction h with
  | nil tokens => exact h'.behind tokens
  | cons hpart _ ih =>
      rw [List.append_assoc]
      exact .cons hpart ih

theorem bounded (h : Spread tokens parts) : ∀ part ∈ parts, part.span.BoundedBy tokens := by
  induction h with
  | nil => simp
  | cons hpart _ ih =>
      refine List.forall_mem_cons.mpr ⟨?_, fun part hm => ?_⟩
      · exact hpart.mono fun node hm => List.mem_append_left _ hm
      · exact (ih part hm).mono fun node hm => List.mem_append_right _ hm

/-- Parts that lie on tokens in order are in order themselves. -/
theorem ordered (h : Spread tokens parts) (ho : InOrder tokens) : parts.Pairwise Node.Before := by
  induction h with
  | nil => exact .nil
  | cons hpart hothers ih =>
      exact .cons (fun other hm => ho.before hpart (hothers.bounded other hm)) (ih ho.right)

theorem single {part : Node} (h : part.span.BoundedBy tokens) : Spread tokens [part] := by
  simpa using Spread.cons h (.nil [])

theorem pieces {pieces : List (Piece Node)}
    (h : ∀ piece ∈ pieces, piece.value.span.BoundedBy piece.tokens) :
    Spread (Piece.tokensOf pieces) (Piece.values pieces) := by
  induction pieces with
  | nil => exact .nil []
  | cons piece pieces ih =>
      obtain ⟨hpiece, hpieces⟩ := List.forall_mem_cons.mp h
      exact .cons hpiece (ih hpieces)

/-- Tokens lie on themselves. -/
theorem self (h : ∀ token ∈ tokens, token.span.start < token.span.stop) : Spread tokens tokens := by
  induction tokens with
  | nil => exact .nil []
  | cons token tokens ih =>
      obtain ⟨htoken, htokens⟩ := List.forall_mem_cons.mp h
      have hbounded : token.span.BoundedBy [token] :=
        ⟨htoken, ⟨token, by simp, rfl⟩, ⟨token, by simp, rfl⟩⟩
      exact .cons hbounded (ih htokens)

end Spread

/-! ### Nested nodes -/

/-- A node covers just the tokens from an opening one to a closing one, and is what they stand
for. -/
def Delimited (opens closes : Node → Prop) (derives : List Node → Prop) (tokens : List Node)
    (node : Node) : Prop :=
  ∃ opening inner closing, opens opening ∧ closes closing ∧
    opening :: (inner ++ [closing]) <:+: tokens ∧ derives (opening :: (inner ++ [closing])) ∧
    node.span = ⟨opening.span.start, closing.span.stop⟩

/-- The kinds of the constructs that cover their children and nothing else. -/
def groups : List Kind := [.expression, .messages, .statements, .blockArguments]

/-- A node covers its children, which lie one behind the other. A group covers no more than that,
and a block or a declaration reaches from its opening delimiter to its closing one. -/
structure Nested (tokens : List Node) (node : Node) : Prop where
  inside : ∀ child, some child ∈ node.children → child.span.Inside node.span
  ordered : (node.children.filterMap id).Pairwise Node.Before
  least : node.kind ∈ groups → ∀ outer : Span,
    (∀ child, some child ∈ node.children → child.span.Inside outer) → node.span.Inside outer
  block : node.kind = .block →
    Delimited (Terminal .leftSquareBracket) (Terminal .rightSquareBracket)
      (Derivation .primary · node) tokens node
  temporaries : node.kind = .temporaries →
    Delimited (Selector "|") (Selector "|") (Temporaries · [node]) tokens node

variable {all : List Node}

/-- A token has no delimiters of its own, whatever stands under it. -/
theorem nested_of_isToken {node : Node} {parts : List Node} (hk : node.kind.isToken = true)
    (hc : node.children = parts.map some) (hi : ∀ part ∈ parts, part.span.Inside node.span)
    (ho : parts.Pairwise Node.Before) : Nested all node := by
  refine ⟨by simpa [hc] using hi, by simpa [hc, List.filterMap_map] using ho, ?_, ?_, ?_⟩
  · intro hg
    simp only [groups, List.mem_cons, List.not_mem_nil, or_false] at hg
    rcases hg with h | h | h | h <;> simp [h, Kind.isToken] at hk
  · intro h
    simp [h, Kind.isToken] at hk
  · intro h
    simp [h, Kind.isToken] at hk

theorem nested_compose {kind : Kind} (hk : kind ∈ groups) {parts : List Node} (hne : parts ≠ [])
    (ho : parts.Pairwise Node.Before) : Nested all (.compose kind parts) := by
  refine ⟨?_, by simpa [Node.compose, List.filterMap_map] using ho, ?_, ?_, ?_⟩
  · simpa [Node.compose] using Node.inside_cover
  · intro _ outer hchildren
    refine cover_within (Span.region_inside outer) hne fun part hm => hchildren part ?_
    simpa [Node.compose] using hm
  · rintro rfl
    simp [groups] at hk
  · rintro rfl
    simp [groups] at hk

/-- What lies between two delimiters lies inside what they enclose. -/
theorem nested_enclose {kind : Kind} (hg : kind ∉ groups) {opening closing : Node}
    {inner parts : List Node} (horder : InOrder (opening :: (inner ++ [closing])))
    (hs : Spread inner parts)
    (hb : kind = .block → Delimited (Terminal .leftSquareBracket) (Terminal .rightSquareBracket)
      (Derivation .primary · (.enclose kind opening closing parts)) all
      (.enclose kind opening closing parts))
    (ht : kind = .temporaries → Delimited (Selector "|") (Selector "|")
      (Temporaries · [.enclose kind opening closing parts]) all
      (.enclose kind opening closing parts)) :
    Nested all (.enclose kind opening closing parts) := by
  have hinner : InOrder inner := (@InOrder.right [opening] _ horder).left
  refine ⟨?_, ?_, fun hk => absurd hk hg, hb, ht⟩
  · intro part hm
    rw [Node.enclose, horder.merge_eq]
    refine (hs.bounded part (by simpa [Node.enclose] using hm)).inside fun token htoken => ?_
    exact horder.inside token (by simp [htoken])
  · simpa [Node.enclose, List.filterMap_map] using hs.ordered hinner

theorem Terminal.nested {kind : Kind} {token : Node} (h : Terminal kind token)
    (hk : kind.isToken = true) : Nested all token := by
  have hnone : token.children = ([] : List Node).map some := Node.children_of_isLeaf h.leaf
  exact nested_of_isToken (by rw [h.kind_eq, hk]) hnone (by simp) .nil

/-- A token that has become the parent of other nodes covers them all. -/
theorem Terminal.nested_atop {kind : Kind} {token : Node} (h : Terminal kind token)
    (hk : kind.isToken = true) {parts : List Node} (ho : parts.Pairwise Node.Before) :
    Nested all (token.atop parts) := by
  refine nested_of_isToken (by rw [Node.atop, h.kind_eq, hk]) rfl ?_ ho
  exact fun part hm => Node.inside_cover part (List.mem_cons_of_mem _ hm)

/-! ### Where parts lie -/

theorem spread_keywordPart {segments : List (Piece Node)}
    (h : Spread (Piece.tokensOf segments) (Piece.values segments)) :
    Spread (Piece.tokensOf segments) (Node.keywordPart (Piece.values segments)) := by
  cases segments with
  | nil => exact .nil _
  | cons segment segments =>
      exact .single (cover_within (Span.region_boundedBy _) (by simp) h.bounded)

variable (ho : InOrder all) {tokens : List Node}

include ho

theorem proper_boundedBy (hi : tokens <:+: all) :
    ∀ token ∈ tokens, token.Proper (Span.BoundedBy tokens) fun _ => false := by
  intro token hm
  have hproper := ho.proper token (hi.subset hm)
  exact ⟨⟨hproper, ⟨token, hm, rfl⟩, ⟨token, hm, rfl⟩⟩, by simp⟩

theorem Derivation.bounded {phrase : Phrase} {tree : Node} (h : Derivation phrase tokens tree)
    (hi : tokens <:+: all) : ∀ node, tree.Contains node → node.span.BoundedBy tokens := by
  have htree := h.everywhere (Span.region_boundedBy tokens) (proper_boundedBy ho hi)
  exact fun node hc => (Node.everywhere_iff_contains.mp htree node hc).span

theorem Derivation.spread {phrase : Phrase} {tree : Node} (h : Derivation phrase tokens tree)
    (hi : tokens <:+: all) : Spread tokens [tree] :=
  .single (h.bounded ho hi tree .root)

theorem spread_pieces {phrase : Phrase} {pieces : List (Piece Node)}
    (h : ∀ piece ∈ pieces, Derivation phrase piece.tokens piece.value)
    (hi : Piece.tokensOf pieces <:+: all) :
    Spread (Piece.tokensOf pieces) (Piece.values pieces) :=
  .pieces fun piece hm => (h piece hm).bounded ho (infix_tokensOf hm hi) _ .root

theorem spread_option {phrase : Phrase} {piece : Option (Piece Node)}
    (h : ∀ found ∈ piece, Derivation phrase found.tokens found.value)
    (hi : Piece.tokensOf piece.toList <:+: all) :
    Spread (Piece.tokensOf piece.toList) (Piece.values piece.toList) :=
  spread_pieces ho (fun found hm => h found (Option.mem_toList.mp hm)) hi

theorem spread_self (hi : tokens <:+: all) : Spread tokens tokens :=
  .self fun token hm => ho.proper token (hi.subset hm)

theorem Parameters.spread {arguments : List Node} (h : Parameters tokens arguments)
    (hi : tokens <:+: all) : Spread tokens arguments := by
  have heverywhere := h.everywhere (Span.region_boundedBy tokens) (proper_boundedBy ho hi)
  cases h with
  | absent => exact .nil _
  | present => exact .single (heverywhere _ (by simp)).here.span

theorem Temporaries.spread {names : List Node} (h : Temporaries tokens names)
    (hi : tokens <:+: all) : Spread tokens names := by
  have heverywhere := h.everywhere (Span.region_boundedBy tokens) (proper_boundedBy ho hi)
  cases h with
  | absent => exact .nil _
  | none => exact .nil _
  | present => exact .single (heverywhere _ (by simp)).here.span

/-- The arguments of the segments of a message lie one behind the other. -/
theorem spread_arguments {segments : List (Piece Node)}
    (h : ∀ piece ∈ segments, Derivation .keywordSegment piece.tokens piece.value)
    (hi : Piece.tokensOf segments <:+: all) :
    ∃ arguments : List Node, (Piece.values segments).flatMap Node.children = arguments.map some ∧
      Spread (Piece.tokensOf segments) arguments := by
  induction segments with
  | nil => exact ⟨[], rfl, .nil _⟩
  | cons segment segments ih =>
      obtain ⟨hsegment, hsegments⟩ := List.forall_mem_cons.mp h
      obtain ⟨hfirst, hothers⟩ := infix_append hi
      obtain ⟨arguments, hchildren, hspread⟩ := ih hsegments hothers
      obtain ⟨words, tree⟩ := segment
      cases hsegment with
      | @keywordSegment selector argument words _ hargument =>
          have hfront := (hargument.spread ho (infix_tail hfirst)).behind [selector]
          exact ⟨argument :: arguments, by simp [hchildren], hfront.append hspread⟩

/-! ### Formed nodes -/

theorem Parameters.nested {node : Node} (h : Parameters tokens [node]) (hi : tokens <:+: all) :
    Nested all node := by
  cases h with
  | @present pieces bar hne hp _ =>
      obtain ⟨hnames, -⟩ := infix_append hi
      have hspread : Spread (Piece.tokensOf pieces) (Piece.values pieces) := by
        refine .pieces fun piece hm => ?_
        have hproper := proper_boundedBy ho (infix_tokensOf hm hnames)
        have hparameter := hp piece hm
        generalize piece.tokens = words, piece.value = name at hparameter hproper
        cases hparameter with
        | mk _ hn => exact (hproper name (by simp)).span
      refine nested_compose (by decide) ?_ (hspread.ordered (ho.sublist hnames.sublist))
      simpa [Piece.values] using hne

theorem Temporaries.nested {node : Node} (h : Temporaries tokens [node]) (hi : tokens <:+: all) :
    Nested all node := by
  have horder := ho.sublist hi.sublist
  have hself := h
  cases h with
  | @present opening closing declared _ hopening _ hclosing =>
      have hspread := spread_self ho (infix_append (infix_tail hi)).1
      refine nested_enclose (by decide) horder hspread (by simp) fun _ => ?_
      exact ⟨opening, declared, closing, hopening, hclosing, hi, hself, horder.merge_eq⟩

theorem nested_joined {segments : List (Piece Node)}
    (hd : ∀ piece ∈ segments, Derivation .keywordSegment piece.tokens piece.value)
    (hi : Piece.tokensOf segments <:+: all) :
    Nested all (.joined (Piece.values segments)) := by
  obtain ⟨arguments, hchildren, hspread⟩ := spread_arguments ho hd hi
  refine nested_of_isToken rfl hchildren ?_ (hspread.ordered (ho.sublist hi.sublist))
  intro argument hm
  have hchild : some argument ∈ (Piece.values segments).flatMap Node.children := by
    simpa [hchildren] using hm
  obtain ⟨segment, hs, hc⟩ := List.mem_flatMap.mp hchild
  have hinside : argument.span.Inside segment.span := by
    obtain ⟨piece, hp, rfl⟩ := List.mem_map.mp hs
    have hsegment := hd piece hp
    generalize piece.tokens = words, piece.value = tree at hsegment hc
    cases hsegment with
    | keywordSegment =>
        refine Node.inside_cover argument (List.mem_cons_of_mem _ ?_)
        simpa [Node.atop] using hc
  exact hinside.trans (Node.inside_cover segment hs)

/-- The tree of a phrase covers its children in their order. -/
theorem Derivation.nested {phrase : Phrase} {tree : Node} (h : Derivation phrase tokens tree)
    (hi : tokens <:+: all) : Nested all tree := by
  induction h with
  | answer hc => exact hc.nested_atop rfl (List.pairwise_singleton _ _)
  | @statements _ _ last _ hf hd _ ihf _ =>
      obtain ⟨hfirst, hrest⟩ := infix_append hi
      obtain ⟨hothers, -⟩ := infix_append hrest
      have hspread := (hf.spread ho hfirst).append
        ((spread_pieces ho hd hothers).append (.nil last))
      rw [List.append_nil] at hspread
      have hordered := hspread.ordered (ho.sublist hi.sublist)
      unfold Node.statementsOf
      split
      · rename_i heq
        exact (List.cons.inj heq).1 ▸ ihf hfirst
      · exact nested_compose (by decide) (by simp) hordered
  | nextStatement _ _ ih => exact ih (infix_tail hi)
  | @assignment name sign _ _ _ hs hd =>
      have hname : [name] <:+: all := (@infix_append _ [name] _ hi).1
      have hvalue := infix_tail (infix_tail hi)
      have hspread := (spread_self ho hname).append ((hd.spread ho hvalue).behind [sign])
      exact hs.nested_atop rfl (hspread.ordered (ho.sublist hi.sublist))
  | send hr hrun hcascades =>
      obtain ⟨hreceiver, hrest⟩ := infix_append hi
      obtain ⟨hfirst, hothers⟩ := infix_append hrest
      have hspread := (hr.spread ho hreceiver).append
        ((spread_option ho hrun hfirst).append (spread_pieces ho hcascades hothers))
      exact nested_compose (by decide) (by simp) (hspread.ordered (ho.sublist hi.sublist))
  | cascade _ _ ih => exact ih (infix_tail hi)
  | @messages unary binary segments _ hb hs hne =>
      obtain ⟨hnames, hrest⟩ := infix_append hi
      obtain ⟨hbinary, hsegments⟩ := infix_append hrest
      have hspread := (spread_self ho hnames).append ((spread_pieces ho hb hbinary).append
        (spread_keywordPart (spread_pieces ho hs hsegments)))
      refine nested_compose (by decide) ?_ (hspread.ordered (ho.sublist hi.sublist))
      cases unary <;> cases binary <;> cases segments <;> simp_all [Node.keywordPart]
  | binaryMessage hs => exact hs.nested_atop rfl (List.pairwise_singleton _ _)
  | keywordSegment hs => exact hs.nested_atop rfl (List.pairwise_singleton _ _)
  | name ht => exact ht.nested rfl
  | integer ht => exact ht.nested rfl
  | negative => exact Terminal.nested ⟨rfl, rfl⟩ rfl
  | string ht => exact ht.nested rfl
  | @block opening closing tokens tokens' _ _ body hopening hpar htmp hbody hclosing =>
      have hself := Derivation.block hopening hpar htmp hbody hclosing
      obtain ⟨hparameters, hrest⟩ := infix_append (infix_tail hi)
      obtain ⟨htemporaries, hrest⟩ := infix_append hrest
      obtain ⟨hinner, -⟩ := infix_append hrest
      have hspread := (hpar.spread ho hparameters).append
        ((htmp.spread ho htemporaries).append (spread_option ho hbody hinner))
      -- The closing bracket stands behind everything else.
      have hassoc : opening :: (tokens ++ (tokens' ++ (Piece.tokensOf body.toList ++ [closing]))) =
          opening :: ((tokens ++ (tokens' ++ Piece.tokensOf body.toList)) ++ [closing]) := by simp
      rw [hassoc] at hi hself
      have horder := ho.sublist hi.sublist
      refine nested_enclose (by decide) horder hspread (fun _ => ?_) (by simp)
      exact ⟨opening, _, closing, hopening, hclosing, hi, hself, horder.merge_eq⟩
  | parenthesised _ _ _ ih => exact ih (infix_append (infix_tail hi)).1

theorem Formed.nested {node : Node} (h : Formed all node) : Nested all node := by
  cases h with
  | name _ ht => exact ht.nested rfl
  | phrase hi hd => exact hd.nested ho hi
  | parameters hi hp => exact hp.nested ho hi
  | temporaries hi ht => exact ht.nested ho hi
  | message hi hd => exact nested_joined ho hd hi

end Grammar

open Grammar Token

/-! ### Programs -/

theorem inOrder_of_tokenize {source : String} {tokens : List Node}
    (h : tokenize source = .ok tokens) : InOrder tokens := by
  have ht := tiled_of_tokenize h
  refine ⟨fun token hm => ?_, ht.ordered⟩
  obtain ⟨-, lexeme, ⟨before, behind, -, hspan⟩, hspelling⟩ :=
    @Tiled.tokens_spelled source [] _ _ ht rfl token hm
  have hpos := byteLength_pos hspelling.ne_nil
  rw [hspan]
  simp only
  omega

/-- Every node of a program covers something, begins with a token and ends with one. Its children
lie inside it, one behind the other. Expressions, runs of messages, statements and parameters of
blocks cover their children and nothing else; blocks and declarations reach from their opening
delimiter to their closing one. What is left over lies behind the program. -/
theorem program_spans_nest (source : String) (parsed : Parsed) (tree : Node)
    (h : parseProgram source = .ok parsed) (ht : parsed.program = some tree) :
    ∃ consumed, tokenize source = .ok (consumed ++ parsed.rest) ∧
      (∀ node, tree.Contains node →
        node.span.BoundedBy consumed ∧ node.span.stop ≤ source.utf8ByteSize ∧
          Nested consumed node) ∧
      ∀ token ∈ parsed.rest, tree.span.stop ≤ token.span.start := by
  obtain ⟨consumed, htokens, hd⟩ := parseProgram_of_some h ht
  have hall := inOrder_of_tokenize htokens
  have hbounded := hd.bounded hall.left List.infix_rfl
  have hformed := Node.everywhere_iff_contains.mp (hd.formed List.infix_rfl)
  refine ⟨consumed, htokens, fun node hc => ⟨hbounded node hc, ?_, ?_⟩, fun token hm => ?_⟩
  · obtain ⟨last, hlast, hstop⟩ := (hbounded node hc).last
    obtain ⟨-, lexeme, hslice, -⟩ := @Tiled.tokens_spelled source [] _ _ (tiled_of_tokenize htokens)
      rfl last (List.mem_append_left _ hlast)
    exact hstop ▸ hslice.stop_le
  · exact (hformed node hc).nested hall.left
  · obtain ⟨last, hlast, hstop⟩ := (hbounded tree .root).last
    exact hstop ▸ (List.pairwise_append.mp hall.ordered).2.2 last hlast token hm

/-- A block with parameters, temporaries, parentheses and a sign, and a bracket left over. -/
theorem program_spans_nest_block :
    ∃ parsed tree consumed, parseProgram "[:a | |t| t := (a) - - 3] value: 'é' )" = .ok parsed ∧
      parsed.program = some tree ∧ tree.span = ⟨0, 37⟩ ∧
      tokenize "[:a | |t| t := (a) - - 3] value: 'é' )" = .ok (consumed ++ parsed.rest) ∧
      (∀ node, tree.Contains node → node.span.BoundedBy consumed ∧ node.span.stop ≤ 39 ∧
        Nested consumed node) ∧
      parsed.rest.map Node.span = [⟨38, 39⟩] ∧
      ∀ token ∈ parsed.rest, tree.span.stop ≤ token.span.start := by
  have hspans : (parseProgram "[:a | |t| t := (a) - - 3] value: 'é' )").toOption.map
      (fun parsed => (parsed.program.map Node.span, parsed.rest.map Node.span)) =
      some (some ⟨0, 37⟩, [⟨38, 39⟩]) := by
    decide +kernel
  cases h : parseProgram "[:a | |t| t := (a) - - 3] value: 'é' )" with
  | error fault => simp [h, Except.toOption] at hspans
  | ok parsed =>
      simp only [h, Except.toOption, Option.map_some, Option.some.injEq, Prod.mk.injEq,
        Option.map_eq_some_iff] at hspans
      obtain ⟨⟨tree, ht, hspan⟩, hrest⟩ := hspans
      obtain ⟨consumed, htokens, hnodes, hbehind⟩ := program_spans_nest _ parsed tree h ht
      exact ⟨parsed, tree, consumed, rfl, ht, hspan, htokens, hnodes, hrest, hbehind⟩

end MiniSmalltalk
