import MiniSmalltalk.Proofs.Grammar.Derivation
import MiniSmalltalk.Proofs.Tree.Relocation

/-! # What trees have from their tokens

A tree covers nothing that its tokens do not cover, and every name in it is the text of one of
them. Every node of a tree is formed from a stretch of the tokens by one of the rules. -/

namespace MiniSmalltalk

/-- A property of spans that passes to every span covering some of them. -/
structure Span.Region (within : Span → Prop) : Prop where
  merge {a b : Span} : within a → within b → within (a.merge b)

/-- A node in a region, with no hidden name. -/
structure Node.Proper (within : Span → Prop) (hidden : String → Bool) (node : Node) : Prop where
  span : within node.span
  names : ∀ name ∈ node.names, hidden name = false

namespace Grammar

variable {within : Span → Prop} {hidden : String → Bool}

theorem proper_of_no_names {node : Node} (hs : within node.span) (hn : node.names = []) :
    node.Proper within hidden :=
  ⟨hs, by simp [hn]⟩

theorem everywhere_of_parts {holds : Node → Prop} {node : Node} {parts : List Node}
    (hc : node.children = parts.map some) (hn : holds node)
    (hp : ∀ part ∈ parts, part.Everywhere holds) : node.Everywhere holds := by
  refine .node hn fun child hm => hp child ?_
  simpa [hc] using hm

theorem Terminal.everywhere {kind : Kind} {token : Node} (h : Terminal kind token)
    (ht : token.Proper within hidden) : token.Everywhere (Node.Proper within hidden) :=
  .leaf h.leaf ht

theorem Terminal.avoids {token : Node} (h : Terminal .identifier token)
    (ht : token.Proper within hidden) : hidden token.textOrEmpty = false :=
  ht.names _ (by simp [Node.names, h.kind_eq])

theorem mem_tokensOf {pieces : List (Piece Node)} {piece : Piece Node} (hp : piece ∈ pieces)
    {token : Node} (ht : token ∈ piece.tokens) : token ∈ Piece.tokensOf pieces :=
  List.mem_flatMap.mpr ⟨piece, hp, ht⟩

theorem forall_values {holds : Node → Prop} {pieces : List (Piece Node)}
    (h : ∀ piece ∈ pieces, holds piece.value) : ∀ value ∈ Piece.values pieces, holds value := by
  intro value hm
  obtain ⟨piece, hp, rfl⟩ := List.mem_map.mp hm
  exact h piece hp

variable (hw : Span.Region within)

include hw

theorem cover_within {nodes : List Node} (hne : nodes ≠ [])
    (h : ∀ node ∈ nodes, within node.span) : within (Node.cover nodes) := by
  have hfold : ∀ (others : List Node) (span : Span), within span →
      (∀ node ∈ others, within node.span) →
      within (others.foldl (fun span node => span.merge node.span) span) := by
    intro others
    induction others with
    | nil => exact fun _ hs _ => hs
    | cons node others ih =>
        intro span hs ho
        exact ih _ (hw.merge hs (ho node (by simp))) fun other hm => ho other (by simp [hm])
  cases nodes with
  | nil => exact absurd rfl hne
  | cons first others =>
      exact hfold others _ (h first (by simp)) fun node hm => h node (by simp [hm])

theorem cover_within_of_everywhere {nodes : List Node} (hne : nodes ≠ [])
    (h : ∀ node ∈ nodes, node.Everywhere (Node.Proper within hidden)) :
    within (Node.cover nodes) :=
  cover_within hw hne fun node hm => (h node hm).here.span

theorem compose_everywhere {kind : Kind} {parts : List Node}
    (hk : (Node.compose kind parts).names = []) (hne : parts ≠ [])
    (hp : ∀ part ∈ parts, part.Everywhere (Node.Proper within hidden)) :
    (Node.compose kind parts).Everywhere (Node.Proper within hidden) :=
  everywhere_of_parts rfl (proper_of_no_names (cover_within_of_everywhere hw hne hp) hk) hp

theorem atop_everywhere {token : Node} {parts : List Node} (hs : within token.span)
    (hn : ∀ name ∈ (token.atop parts).names, hidden name = false)
    (hp : ∀ part ∈ parts, part.Everywhere (Node.Proper within hidden)) :
    (token.atop parts).Everywhere (Node.Proper within hidden) := by
  have hcover : within (Node.cover (token :: parts)) := by
    refine cover_within hw (by simp) (List.forall_mem_cons.mpr ⟨hs, ?_⟩)
    exact fun part hm => (hp part hm).here.span
  exact everywhere_of_parts rfl ⟨hcover, hn⟩ hp

theorem statementsOf_everywhere {parts : List Node} (hne : parts ≠ [])
    (hp : ∀ part ∈ parts, part.Everywhere (Node.Proper within hidden)) :
    (Node.statementsOf parts).Everywhere (Node.Proper within hidden) := by
  unfold Node.statementsOf
  split
  · exact hp _ (by simp)
  · exact compose_everywhere hw rfl hne hp

theorem keywordPart_everywhere {segments : List Node}
    (h : ∀ segment ∈ segments, segment.Everywhere (Node.Proper within hidden)) :
    ∀ message ∈ Node.keywordPart segments, message.Everywhere (Node.Proper within hidden) := by
  intro message hm
  cases segments with
  | nil => cases hm
  | cons first others =>
      obtain rfl := List.mem_singleton.mp hm
      refine .node (proper_of_no_names (cover_within_of_everywhere hw (by simp) h) rfl) ?_
      intro child hc
      obtain ⟨segment, hs, hchild⟩ := List.mem_flatMap.mp hc
      exact (h segment hs).inside hchild

theorem Parameters.everywhere {tokens arguments : List Node} (h : Parameters tokens arguments)
    (ht : ∀ token ∈ tokens, token.Proper within hidden) :
    ∀ node ∈ arguments, node.Everywhere (Node.Proper within hidden) := by
  cases h with
  | absent => simp
  | @present pieces bar hne hp _ =>
      have hnames : ∀ name ∈ Piece.values pieces, Terminal .identifier name ∧
          name.Proper within hidden := by
        refine forall_values fun piece hm => ?_
        have htokens : ∀ token ∈ piece.tokens, token.Proper within hidden :=
          fun token hmt => ht token (List.mem_append_left _ (mem_tokensOf hm hmt))
        have hparameter := hp piece hm
        generalize piece.tokens = words, piece.value = name at hparameter htokens
        cases hparameter with
        | mk _ hn => exact ⟨hn, htokens name (by simp)⟩
      intro node hm
      obtain rfl := List.mem_singleton.mp hm
      refine everywhere_of_parts rfl
        ⟨cover_within hw (by simpa [Piece.values] using hne) fun name hn =>
          (hnames name hn).2.span, ?_⟩
        fun name hn => (hnames name hn).1.everywhere (hnames name hn).2
      intro name hn
      obtain ⟨token, hmt, rfl⟩ : ∃ token ∈ Piece.values pieces, token.textOrEmpty = name := by
        simpa [Node.names, Node.compose, Block.names] using hn
      exact (hnames token hmt).1.avoids (hnames token hmt).2

theorem Temporaries.everywhere {tokens names : List Node} (h : Temporaries tokens names)
    (ht : ∀ token ∈ tokens, token.Proper within hidden) :
    ∀ node ∈ names, node.Everywhere (Node.Proper within hidden) := by
  cases h with
  | absent => simp
  | none => simp
  | @present opening closing declared _ _ hn _ =>
      have hproper : ∀ name ∈ declared, name.Proper within hidden :=
        fun name hm => ht name (by simp [hm])
      intro node hm
      obtain rfl := List.mem_singleton.mp hm
      refine everywhere_of_parts rfl
        ⟨hw.merge (ht opening (by simp)).span (ht closing (by simp)).span, ?_⟩
        fun name hm => (hn name hm).everywhere (hproper name hm)
      intro name hm
      obtain ⟨token, hmt, rfl⟩ : ∃ token ∈ declared, token.textOrEmpty = name := by
        simpa [Node.names, Node.enclose, Block.names] using hm
      exact (hn token hmt).avoids (hproper token hmt)

/-- Whatever holds of all tokens holds everywhere in the tree. -/
theorem Derivation.everywhere {phrase : Phrase} {tokens : List Node} {tree : Node}
    (h : Derivation phrase tokens tree) (ht : ∀ token ∈ tokens, token.Proper within hidden) :
    tree.Everywhere (Node.Proper within hidden) := by
  induction h with
  | answer hc _ _ ih =>
      refine atop_everywhere hw (ht _ (by simp)).span
        (by simp [Node.names, Node.atop, hc.kind_eq]) ?_
      simpa using ih fun token hm => ht token (by simp [hm])
  | statements _ _ _ ihf iho =>
      refine statementsOf_everywhere hw (by simp) (List.forall_mem_cons.mpr ⟨?_, forall_values ?_⟩)
      · exact ihf fun token hm => ht token (by simp [hm])
      · exact fun piece hp => iho piece hp fun token hm => ht token (by simp [mem_tokensOf hp hm])
  | nextStatement _ _ ih => exact ih fun token hm => ht token (by simp [hm])
  | @assignment name sign tree _ hn hs _ ih =>
      have hname := ht name (by simp)
      refine atop_everywhere hw (ht sign (by simp)).span ?_ ?_
      · simpa [Node.names, Node.atop, hs.kind_eq, Node.child?] using hn.avoids hname
      · simp only [List.forall_mem_cons]
        exact ⟨hn.everywhere hname, ih fun token hm => ht token (by simp [hm]), by simp⟩
  | @send _ _ run cascades _ _ _ ihr ihrun ihc =>
      refine compose_everywhere hw rfl (by simp) (List.forall_mem_cons.mpr ⟨?_, ?_⟩)
      · exact ihr fun token hm => ht token (by simp [hm])
      · refine List.forall_mem_append.mpr ⟨forall_values ?_, forall_values ?_⟩
        · exact fun piece hp => ihrun piece (Option.mem_toList.mp hp) fun token hm =>
            ht token (by simp [mem_tokensOf hp hm])
        · exact fun piece hp => ihc piece hp fun token hm =>
            ht token (by simp [mem_tokensOf hp hm])
  | cascade _ _ ih => exact ih fun token hm => ht token (by simp [hm])
  | @messages unary binary segments hu _ _ hne ihb ihs =>
      have hparts :
          unary ++ (Piece.values binary ++ Node.keywordPart (Piece.values segments)) ≠ [] := by
        cases unary <;> cases binary <;> cases segments <;> simp_all [Node.keywordPart]
      refine compose_everywhere hw rfl hparts (List.forall_mem_append.mpr ⟨?_, ?_⟩)
      · exact fun name hm => (hu name hm).everywhere (ht name (by simp [hm]))
      · refine List.forall_mem_append.mpr ⟨forall_values ?_, keywordPart_everywhere hw ?_⟩
        · exact fun piece hp => ihb piece hp fun token hm =>
            ht token (by simp [mem_tokensOf hp hm])
        · exact forall_values fun piece hp => ihs piece hp fun token hm =>
            ht token (by simp [mem_tokensOf hp hm])
  | binaryMessage hs _ ih =>
      refine atop_everywhere hw (ht _ (by simp)).span
        (by simp [Node.names, Node.atop, hs.kind_eq]) ?_
      simpa using ih fun token hm => ht token (by simp [hm])
  | keywordSegment hs _ ih =>
      refine atop_everywhere hw (ht _ (by simp)).span
        (by simp [Node.names, Node.atop, hs.kind_eq]) ?_
      simpa using ih fun token hm => ht token (by simp [hm])
  | name hk => exact hk.everywhere (ht _ (by simp))
  | integer hk => exact hk.everywhere (ht _ (by simp))
  | @negative minus token _ _ =>
      have hcover : within (Node.cover [minus, token]) :=
        cover_within hw (by simp) fun node hm => (ht node hm).span
      exact .leaf rfl (proper_of_no_names hcover rfl)
  | string hk => exact hk.everywhere (ht _ (by simp))
  | @block opening closing _ _ _ _ body _ hpar htmp _ _ ih =>
      have hspan := hw.merge (ht opening (by simp)).span (ht closing (by simp)).span
      refine everywhere_of_parts rfl (proper_of_no_names hspan rfl) ?_
      refine List.forall_mem_append.mpr ⟨hpar.everywhere hw ?_, List.forall_mem_append.mpr
        ⟨htmp.everywhere hw ?_, forall_values ?_⟩⟩
      · exact fun token hm => ht token (by simp [hm])
      · exact fun token hm => ht token (by simp [hm])
      · exact fun piece hp => ih piece (Option.mem_toList.mp hp) fun token hm =>
          ht token (by simp [mem_tokensOf hp hm])
  | parenthesised _ _ _ ih => exact ih fun token hm => ht token (by simp [hm])

omit hw

/-! ### Stretches of tokens -/

variable {all tokens : List Node}

theorem infix_append {front back : List Node} (h : front ++ back <:+: all) :
    front <:+: all ∧ back <:+: all :=
  ⟨(List.prefix_append front back).isInfix.trans h, (List.suffix_append front back).isInfix.trans h⟩

theorem infix_tail {token : Node} (h : token :: tokens <:+: all) : tokens <:+: all :=
  (List.suffix_cons token tokens).isInfix.trans h

theorem infix_tokensOf {pieces : List (Piece Node)} {piece : Piece Node} (hm : piece ∈ pieces)
    (h : Piece.tokensOf pieces <:+: all) : piece.tokens <:+: all := by
  obtain ⟨front, back, rfl⟩ := List.append_of_mem hm
  refine List.IsInfix.trans ?_ h
  exact ⟨Piece.tokensOf front, Piece.tokensOf back, by simp [Piece.tokensOf]⟩

/-! ### How nodes are formed -/

/-- How a node comes into a tree: as a name among the tokens, as the tree of a phrase, as a
declaration, or as the message that several segments form. -/
inductive Formed (all : List Node) : Node → Prop where
  | name {token : Node} : token ∈ all → Terminal .identifier token → Formed all token
  | phrase {phrase : Phrase} {tokens : List Node} {node : Node} : tokens <:+: all →
      Derivation phrase tokens node → Formed all node
  | parameters {tokens : List Node} {node : Node} : tokens <:+: all →
      Parameters tokens [node] → Formed all node
  | temporaries {tokens : List Node} {node : Node} : tokens <:+: all →
      Temporaries tokens [node] → Formed all node
  | message {segments : List (Piece Node)} : Piece.tokensOf segments <:+: all →
      (∀ piece ∈ segments, Derivation .keywordSegment piece.tokens piece.value) →
      Formed all (.joined (Piece.values segments))

theorem Terminal.formed {token : Node} (h : Terminal .identifier token) (hm : token ∈ all) :
    token.Everywhere (Formed all) :=
  .leaf h.leaf (.name hm h)

theorem Parameters.formed {arguments : List Node} (h : Parameters tokens arguments)
    (hi : tokens <:+: all) : ∀ node ∈ arguments, node.Everywhere (Formed all) := by
  have hself := h
  cases h with
  | absent => simp
  | @present pieces _ _ hp _ =>
      obtain ⟨hpieces, -⟩ := infix_append hi
      refine List.forall_mem_singleton.mpr
        (everywhere_of_parts rfl (.parameters hi hself) (forall_values fun piece hm => ?_))
      have hwords := infix_tokensOf hm hpieces
      have hparameter := hp piece hm
      generalize piece.tokens = words, piece.value = name at hparameter hwords
      cases hparameter with
      | mk _ hn => exact hn.formed (hwords.subset (by simp))

theorem Temporaries.formed {names : List Node} (h : Temporaries tokens names)
    (hi : tokens <:+: all) : ∀ node ∈ names, node.Everywhere (Formed all) := by
  have hself := h
  cases h with
  | absent => simp
  | none => simp
  | present _ _ hn _ =>
      refine List.forall_mem_singleton.mpr
        (everywhere_of_parts rfl (.temporaries hi hself) fun name hm => ?_)
      exact (hn name hm).formed (hi.subset (by simp [hm]))

theorem keywordPart_formed {segments : List (Piece Node)} (hi : Piece.tokensOf segments <:+: all)
    (hd : ∀ piece ∈ segments, Derivation .keywordSegment piece.tokens piece.value)
    (hf : ∀ piece ∈ segments, piece.value.Everywhere (Formed all)) :
    ∀ message ∈ Node.keywordPart (Piece.values segments), message.Everywhere (Formed all) := by
  intro message hm
  obtain rfl : message = .joined (Piece.values segments) := by
    unfold Node.keywordPart at hm
    split at hm
    · cases hm
    · exact List.mem_singleton.mp hm
  refine .node (.message hi hd) fun child hc => ?_
  obtain ⟨segment, hs, hchild⟩ := List.mem_flatMap.mp hc
  exact (forall_values hf segment hs).inside hchild

theorem Derivation.formed {phrase : Phrase} {tree : Node} (h : Derivation phrase tokens tree)
    (hi : tokens <:+: all) : tree.Everywhere (Formed all) := by
  induction h with
  | answer hc hd hl ih =>
      refine everywhere_of_parts rfl (.phrase hi (.answer hc hd hl)) ?_
      exact List.forall_mem_singleton.mpr (ih (infix_append (infix_tail hi)).1)
  | @statements first tokens last others hf hd hl ihf iho =>
      have hself := Formed.phrase hi (.statements hf hd hl)
      obtain ⟨hfirst, hrest⟩ := infix_append hi
      have hothers : ∀ other ∈ Piece.values others, other.Everywhere (Formed all) :=
        forall_values fun piece hm =>
          iho piece hm (infix_tokensOf hm (infix_append hrest).1)
      generalize Piece.values others = parts at hself hothers
      cases parts with
      | nil => exact ihf hfirst
      | cons second parts =>
          exact everywhere_of_parts rfl hself (List.forall_mem_cons.mpr ⟨ihf hfirst, hothers⟩)
  | nextStatement _ _ ih => exact ih (infix_tail hi)
  | assignment hn hs hd ih =>
      refine everywhere_of_parts rfl (.phrase hi (.assignment hn hs hd)) ?_
      refine List.forall_mem_cons.mpr ⟨hn.formed (hi.subset (by simp)), ?_⟩
      exact List.forall_mem_singleton.mpr (ih (infix_tail (infix_tail hi)))
  | send hr hrun hc ih ihr ihc =>
      obtain ⟨hreceiver, hrest⟩ := infix_append hi
      obtain ⟨hfirst, hothers⟩ := infix_append hrest
      refine everywhere_of_parts rfl (.phrase hi (.send hr hrun hc))
        (List.forall_mem_cons.mpr ⟨ih hreceiver, List.forall_mem_append.mpr
          ⟨forall_values ?_, forall_values ?_⟩⟩)
      · exact fun piece hm => ihr piece (Option.mem_toList.mp hm) (infix_tokensOf hm hfirst)
      · exact fun piece hm => ihc piece hm (infix_tokensOf hm hothers)
  | cascade _ _ ih => exact ih (infix_tail hi)
  | messages hu hb hs hne ihb ihs =>
      obtain ⟨hnames, hrest⟩ := infix_append hi
      obtain ⟨hbinary, hsegments⟩ := infix_append hrest
      refine everywhere_of_parts rfl (.phrase hi (.messages hu hb hs hne))
        (List.forall_mem_append.mpr ⟨?_, List.forall_mem_append.mpr
          ⟨forall_values ?_, keywordPart_formed hsegments hs ?_⟩⟩)
      · exact fun name hm => (hu name hm).formed (hnames.subset hm)
      · exact fun piece hm => ihb piece hm (infix_tokensOf hm hbinary)
      · exact fun piece hm => ihs piece hm (infix_tokensOf hm hsegments)
  | binaryMessage hs hd ih =>
      refine everywhere_of_parts rfl (.phrase hi (.binaryMessage hs hd)) ?_
      exact List.forall_mem_singleton.mpr (ih (infix_tail hi))
  | keywordSegment hs hd ih =>
      refine everywhere_of_parts rfl (.phrase hi (.keywordSegment hs hd)) ?_
      exact List.forall_mem_singleton.mpr (ih (infix_tail hi))
  | name ht => exact .leaf ht.leaf (.phrase hi (.name ht))
  | integer ht => exact .leaf ht.leaf (.phrase hi (.integer ht))
  | negative hm ht => exact .leaf rfl (.phrase hi (.negative hm ht))
  | string ht => exact .leaf ht.leaf (.phrase hi (.string ht))
  | block ho hpar htmp hbody hc ih =>
      obtain ⟨hparameters, hrest⟩ := infix_append (infix_tail hi)
      obtain ⟨htemporaries, hrest⟩ := infix_append hrest
      obtain ⟨hinner, -⟩ := infix_append hrest
      refine everywhere_of_parts rfl (.phrase hi (.block ho hpar htmp hbody hc))
        (List.forall_mem_append.mpr ⟨hpar.formed hparameters, List.forall_mem_append.mpr
          ⟨htmp.formed htemporaries, forall_values ?_⟩⟩)
      exact fun piece hm => ih piece (Option.mem_toList.mp hm) (infix_tokensOf hm hinner)
  | parenthesised _ _ _ ih => exact ih (infix_append (infix_tail hi)).1

end Grammar

end MiniSmalltalk
