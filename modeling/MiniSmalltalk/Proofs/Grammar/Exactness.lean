import MiniSmalltalk.Proofs.Grammar.Soundness.Expressions

/-! # Exact readings

What the readers of single constructs take and give in front of known tokens. A reader that
looks ahead needs to know what follows: either the end or a token of a kind that it leaves
alone. -/

namespace MiniSmalltalk.Grammar

variable {α β : Type}

/-! ### Tokens that fail a test -/

theorem Terminal.isKind {kind : Kind} {token : Node} (h : Terminal kind token) :
    isKind kind token = true := by
  simp [Grammar.isKind, h.kind_eq]

theorem Selector.isBinary {text : String} {token : Node} (h : Selector text token) :
    isBinary text token = true := by
  simp [Grammar.isBinary, h.kind_eq, h.text_eq]

def isAnyOf (kinds : List Kind) (token : Node) : Bool := kinds.contains token.kind

theorem isAnyOf_false {kinds : List Kind} {token : Node} :
    isAnyOf kinds token = false ↔ token.kind ∉ kinds := by
  simp [isAnyOf]

theorem Stops.imp {test test' : Node → Bool} {view : List Reading} (h : Stops test view)
    (ht : ∀ token, test token = false → test' token = false) : Stops test' view := by
  cases h with
  | atEnd => exact .atEnd
  | before leaf fails => exact .before leaf (ht _ fails)

theorem Stops.kind {kinds : List Kind} {view : List Reading} (h : Stops (isAnyOf kinds) view)
    {kind : Kind} (hk : kind ∈ kinds) : Stops (isKind kind) view := by
  apply h.imp
  intro token ht
  have hne : token.kind ≠ kind := fun heq => isAnyOf_false.mp ht (heq ▸ hk)
  simpa [isKind] using hne

theorem Stops.binary {kinds : List Kind} {view : List Reading} (h : Stops (isAnyOf kinds) view)
    (hk : .binary ∈ kinds) (text : String) : Stops (isBinary text) view := by
  apply h.imp
  intro token ht
  have hne : token.kind ≠ .binary := fun heq => isAnyOf_false.mp ht (heq ▸ hk)
  simp [isBinary, hne]

theorem Stops.anyOf {kinds kinds' : List Kind} {view : List Reading}
    (h : Stops (isAnyOf kinds) view) (hk : ∀ kind ∈ kinds', kind ∈ kinds) :
    Stops (isAnyOf kinds') view := by
  apply h.imp
  intro token ht
  exact isAnyOf_false.mpr fun hm => isAnyOf_false.mp ht (hk _ hm)

theorem Terminal.stops {kind : Kind} {token : Node} (h : Terminal kind token) {kinds : List Kind}
    (hk : kind ∉ kinds) (later : List Reading) : Stops (isAnyOf kinds) (.ok token :: later) := by
  refine .before h.leaf ?_
  rw [isAnyOf_false, h.kind_eq]
  exact hk

theorem Begins.stops {phrase : Phrase} {token : Node} (h : Begins phrase token) {kinds : List Kind}
    (hk : ∀ kind ∈ phrase.firstKinds, kind ∉ kinds) (later : List Reading) :
    Stops (isAnyOf kinds) (.ok token :: later) := by
  refine .before h.leaf ?_
  rw [isAnyOf_false]
  exact hk _ h.kind_mem

/-! ### Literals -/

theorem accept_returns {kind : Kind} {token : Node} (h : Terminal kind token)
    (later : List Reading) : Returns (.ok token :: later) (accept kind) (some token) later :=
  acceptIf_returns_some h.isKind later

theorem accept_returns_none {kind : Kind} {view : List Reading} (h : Stops (isKind kind) view) :
    Returns view (accept kind) none view :=
  acceptIf_returns_none h

theorem expect_returns {kind : Kind} {token : Node} (h : Terminal kind token) (expected : String)
    (later : List Reading) : Returns (.ok token :: later) (expect kind expected) token later :=
  expectIf_returns h.isKind expected later

theorem expectBinary_returns {text : String} {token : Node} (h : Selector text token)
    (expected : String) (later : List Reading) :
    Returns (.ok token :: later) (expectBinary text expected) token later :=
  expectIf_returns h.isBinary expected later

theorem numberLiteral_returns_none {view : List Reading}
    (h : Stops (isAnyOf [.binary, .integer]) view) : Returns view numberLiteral none view :=
  (acceptIf_returns_none (h.binary (by decide) "-")).bind
    ((accept_returns_none (h.kind (by decide))).bind ((unread_none_returns view).bind .pure))

theorem literal_returns_integer {token : Node} (h : Terminal .integer token)
    (later : List Reading) : Returns (.ok token :: later) literal (some token) later := by
  have hstops : Stops (isAnyOf [.binary]) (.ok token :: later) := h.stops (by decide) later
  have hminus := hstops.binary (by decide) "-"
  have hnumber : Returns (.ok token :: later) numberLiteral (some token) later :=
    (acceptIf_returns_none hminus).bind ((accept_returns h later).bind .pure)
  exact hnumber.bind .pure

theorem literal_returns_negative {minus token : Node} (hm : Selector "-" minus)
    (ht : Terminal .integer token) (later : List Reading) :
    Returns (.ok minus :: .ok token :: later) literal
      (some ⟨.integer, some ("-" ++ token.textOrEmpty), [], Node.cover [minus, token]⟩) later := by
  rw [← negative_eq ht]
  have hnumber : Returns (.ok minus :: .ok token :: later) numberLiteral
      (some (negative minus token)) later :=
    (acceptIf_returns_some hm.isBinary _).bind ((accept_returns ht later).bind .pure)
  exact hnumber.bind .pure

theorem literal_returns_string {token : Node} (h : Terminal .string token)
    (later : List Reading) : Returns (.ok token :: later) literal (some token) later :=
  (numberLiteral_returns_none (h.stops (by decide) later)).bind (accept_returns h later)

theorem literal_returns_none {view : List Reading}
    (h : Stops (isAnyOf [.binary, .integer, .string]) view) : Returns view literal none view :=
  (numberLiteral_returns_none (h.anyOf (by decide))).bind
    (accept_returns_none (h.kind (by decide)))

/-! ### Repetition -/

/-- Pieces are read one after the other if each is read exactly where `stop` holds behind it,
and `stop` holds in front of every piece and of what follows them all. -/
theorem many_returns {item : Reader (Option α)} {pieces : List (Piece α)}
    {stop : List Reading → Prop} {bound limit : Nat} {rest last : List Reading}
    (hp : ∀ piece ∈ pieces, ∀ later, stop later →
      (tokensIn (piece.tokens.map .ok ++ later)).length ≤ bound →
      Returns (piece.tokens.map .ok ++ later) item (some piece.value) later)
    (hs : ∀ piece ∈ pieces, ∀ later, stop (piece.tokens.map .ok ++ later))
    (hne : ∀ piece ∈ pieces, piece.tokens ≠ []) (hr : stop rest)
    (hend : Returns rest item none last)
    (hb : (tokensIn ((Piece.tokensOf pieces).map .ok ++ rest)).length ≤ bound)
    (hl : (tokensIn ((Piece.tokensOf pieces).map .ok ++ rest)).length < limit) :
    Returns ((Piece.tokensOf pieces).map .ok ++ rest) (many item limit) (Piece.values pieces)
      last := by
  induction pieces generalizing limit with
  | nil =>
      cases limit with
      | zero => omega
      | succ limit => exact hend.bind .pure
  | cons piece pieces ih =>
      cases limit with
      | zero => omega
      | succ limit =>
          have hpos := List.length_pos_iff.mpr (hne piece (by simp))
          simp only [Piece.tokensOf_cons, List.map_append, List.append_assoc] at hb hl ⊢
          have hstop : stop ((Piece.tokensOf pieces).map .ok ++ rest) := by
            cases pieces with
            | nil => exact hr
            | cons next others => simpa using hs next (by simp) _
          have hfirst := hp piece (by simp) _ hstop hb
          rw [tokensIn_append, List.length_append] at hb hl
          have hothers := ih (fun piece hm => hp piece (by simp [hm]))
            (fun piece hm => hs piece (by simp [hm])) (fun piece hm => hne piece (by simp [hm]))
            (by omega) (by omega : _ < limit)
          exact hfirst.bind (hothers.bind .pure)

theorem followedBy_returns {kind : Kind} {rest : Reader (Option α)} {join : Node → α → β}
    {token : Node} {part : α} {view later : List Reading} (ht : Terminal kind token)
    (hr : Returns view rest (some part) later) :
    Returns (.ok token :: view) (followedBy kind rest join) (some (join token part)) later :=
  (accept_returns ht view).bind (hr.bind .pure)

theorem followedBy_returns_none {kind : Kind} {rest : Reader (Option α)} {join : Node → α → β}
    {view : List Reading} (h : Stops (isKind kind) view) :
    Returns view (followedBy kind rest join) none view :=
  (accept_returns_none h).bind .pure

/-- Tokens that are each a piece of their own. -/
def singles (tokens : List Node) : List (Piece Node) := tokens.map fun token => ⟨[token], token⟩

theorem tokensOf_singles (tokens : List Node) : Piece.tokensOf (singles tokens) = tokens := by
  simp [singles, Piece.tokensOf, List.flatMap_map]

theorem values_singles (tokens : List Node) : Piece.values (singles tokens) = tokens := by
  simp [singles, Piece.values, Function.comp_def]

theorem forall_mem_singles {tokens : List Node} {holds : Piece Node → Prop}
    (h : ∀ token ∈ tokens, holds ⟨[token], token⟩) : ∀ piece ∈ singles tokens, holds piece := by
  intro piece hm
  obtain ⟨token, ht, rfl⟩ := List.mem_map.mp hm
  exact h token ht

theorem many_accept_returns {kind : Kind} {tokens : List Node} {limit : Nat} {rest : List Reading}
    (ht : ∀ token ∈ tokens, Terminal kind token) (hr : Stops (isKind kind) rest)
    (hl : (tokensIn (tokens.map .ok ++ rest)).length < limit) :
    Returns (tokens.map .ok ++ rest) (many (accept kind) limit) tokens rest := by
  have hmany := @many_returns _ (accept kind) (singles tokens) (fun _ => True) _ limit rest rest
    (forall_mem_singles fun token hm later _ _ => accept_returns (ht token hm) later)
    (fun _ _ _ => trivial) (forall_mem_singles fun token _ => by simp) trivial
    (accept_returns_none hr) (Nat.le_refl _) ((tokensOf_singles tokens).symm ▸ hl)
  rwa [tokensOf_singles, values_singles] at hmany

/-! ### Declarations of a block -/

variable {limit depth : Nat} {inner : Production} {rest : List Reading}

theorem blockArgument_returns {tokens : List Node} {name : Node} (h : Parameter tokens name)
    (later : List Reading) : Returns (tokens.map .ok ++ later) blockArgument (some name) later := by
  cases h with
  | mk hc hn => exact (accept_returns hc _).bind ((expect_returns hn _ later).bind .pure)

theorem Parameter.tokens_ne_nil {tokens : List Node} {name : Node} (h : Parameter tokens name) :
    tokens ≠ [] := by
  cases h
  simp

theorem blockArguments_returns {tokens arguments : List Node} (h : Parameters tokens arguments)
    (hr : Stops (isKind .colon) rest)
    (hl : (tokensIn (tokens.map .ok ++ rest)).length < limit) :
    ∃ found, Returns (tokens.map .ok ++ rest) (blockArguments limit) found rest ∧
      found.toList = arguments := by
  cases h with
  | absent =>
      have hmany := @many_returns _ blockArgument [] (fun _ => True) _ limit rest rest
        (by simp) (by simp) (by simp) trivial ((accept_returns_none hr).bind .pure)
        (Nat.le_refl _) hl
      exact ⟨none, hmany.bind .pure, rfl⟩
  | @present pieces bar hne hp hb =>
      have hcolon : Stops (isAnyOf [.colon]) (.ok bar :: rest) := hb.stops (by decide) rest
      have hmany := @many_returns _ blockArgument pieces (fun _ => True) _ limit
        (.ok bar :: rest) (.ok bar :: rest)
        (fun piece hm later _ _ => blockArgument_returns (hp piece hm) later)
        (fun _ _ _ => trivial) (fun piece hm => (hp piece hm).tokens_ne_nil) trivial
        ((accept_returns_none (hcolon.kind (by simp))).bind .pure)
        (Nat.le_refl _) (by simpa using hl)
      obtain ⟨first, others, rfl⟩ := List.exists_cons_of_ne_nil hne
      refine ⟨some (.compose .blockArguments (Piece.values (first :: others))), ?_, rfl⟩
      rw [← Node.appendAll_bare rfl .origin (by simp)]
      simp only [List.map_append, List.append_assoc]
      exact hmany.bind ((expectBinary_returns hb _ rest).bind .pure)

theorem temporaries_returns_some {opening closing : Node} {names : List Node}
    (ho : Selector "|" opening) (hn : ∀ name ∈ names, Terminal .identifier name)
    (hc : Selector "|" closing)
    (hl : (tokensIn (names.map .ok ++ .ok closing :: rest)).length < limit) :
    Returns (.ok opening :: (names.map .ok ++ .ok closing :: rest)) (temporaries limit)
      (some (.enclose .temporaries opening closing names)) rest := by
  have hstop : Stops (isAnyOf [.identifier]) (.ok closing :: rest) := hc.stops (by decide) rest
  rw [← appendAll_bare_enclose rfl opening.span]
  exact (acceptIf_returns_some ho.isBinary _).bind
    ((many_accept_returns hn (hstop.kind (by simp)) hl).bind
      ((expectBinary_returns hc _ rest).bind .pure))

theorem temporaries_returns {tokens names : List Node} (h : Temporaries tokens names)
    (hr : Stops (isBinary "|") rest)
    (hl : (tokensIn (tokens.map .ok ++ rest)).length < limit) :
    ∃ declared, Returns (tokens.map .ok ++ rest) (temporaries limit) declared rest ∧
      (declared.filter fun node => !node.isLeaf).toList = names := by
  cases h with
  | absent => exact ⟨none, (acceptIf_returns_none hr).bind .pure, rfl⟩
  | @none opening closing ho hc =>
      have hlt : (tokensIn (.ok closing :: rest)).length < limit := Nat.lt_of_succ_lt hl
      exact ⟨_, @temporaries_returns_some limit rest opening closing [] ho (by simp) hc hlt, rfl⟩
  | @present opening closing names hne ho hn hc =>
      refine ⟨some (.enclose .temporaries opening closing names), ?_, ?_⟩
      · have hlt : (tokensIn (names.map .ok ++ .ok closing :: rest)).length < limit := by
          simp at hl ⊢
          omega
        simpa using temporaries_returns_some ho hn hc hlt
      · simp [Node.enclose, Node.isLeaf, hne]

theorem Temporaries.stops_colon {tokens names : List Node} (h : Temporaries tokens names)
    (hr : Stops (isKind .colon) rest) : Stops (isKind .colon) (tokens.map .ok ++ rest) := by
  have hbar : ∀ {opening : Node} (later : List Reading), Selector "|" opening →
      Stops (isKind .colon) (.ok opening :: later) := by
    intro opening later ho
    exact .before ho.leaf (by simp [isKind, ho.kind_eq])
  cases h with
  | absent => exact hr
  | none ho hc => exact hbar _ ho
  | present hne ho hn hc => exact hbar _ ho

/-! ### Receivers -/

theorem primary_returns_name {token : Node} (h : Terminal .identifier token)
    (later : List Reading) :
    Returns (.ok token :: later) (primary limit inner) (some token) later :=
  (accept_returns h later).bind .pure

theorem primary_returns_literal {view later : List Reading} {value : Node}
    (hs : Stops (isAnyOf [.identifier]) view) (hv : Returns view literal (some value) later) :
    Returns view (primary limit inner) (some value) later :=
  (accept_returns_none (hs.kind (by decide))).bind (hv.bind .pure)

theorem blockConstructor_returns {opening closing : Node}
    {tokens tokens' words arguments names : List Node} {body : Option Node}
    (ho : Terminal .leftSquareBracket opening) (hpar : Parameters tokens arguments)
    (htmp : Temporaries tokens' names)
    (hcolon : Stops (isKind .colon) (words.map .ok ++ .ok closing :: rest))
    (hbar : Stops (isBinary "|") (words.map .ok ++ .ok closing :: rest))
    (hbody : Returns (words.map .ok ++ .ok closing :: rest) (statements limit inner) body
      (.ok closing :: rest))
    (hc : Terminal .rightSquareBracket closing)
    (hl : (tokensIn (tokens.map .ok ++ (tokens'.map .ok ++
      (words.map .ok ++ .ok closing :: rest)))).length < limit) :
    Returns (.ok opening :: (tokens.map .ok ++ (tokens'.map .ok ++
        (words.map .ok ++ .ok closing :: rest))))
      (blockConstructor limit inner)
      (some (.enclose .block opening closing (arguments ++ (names ++ body.toList)))) rest := by
  obtain ⟨found, hfound, rfl⟩ := blockArguments_returns hpar (htmp.stops_colon hcolon) hl
  rw [tokensIn_append, List.length_append] at hl
  have hlt : (tokensIn (tokens'.map .ok ++ (words.map .ok ++ .ok closing :: rest))).length <
      limit := by
    omega
  obtain ⟨declared, hdeclared, rfl⟩ := temporaries_returns htmp hbar hlt
  rw [← appendAll_bare_enclose rfl .origin, ← List.append_assoc found.toList]
  apply (accept_returns ho _).bind
  have hparts : Returns _ (blockBody limit inner) _ (.ok closing :: rest) :=
    hfound.bind (hdeclared.bind (hbody.bind .pure))
  exact hparts.bind ((expect_returns hc _ rest).bind .pure)

theorem primary_returns_block {opening block : Node} {view later : List Reading}
    (ho : Terminal .leftSquareBracket opening)
    (hb : Returns (.ok opening :: view) (blockConstructor limit inner) (some block) later) :
    Returns (.ok opening :: view) (primary limit inner) (some block) later := by
  have hname : Stops (isAnyOf [.identifier]) (.ok opening :: view) := ho.stops (by decide) view
  exact (accept_returns_none (hname.kind (by decide))).bind
    ((literal_returns_none (ho.stops (by decide) view)).bind (hb.bind .pure))

theorem blockConstructor_returns_none {view : List Reading}
    (h : Stops (isKind .leftSquareBracket) view) :
    Returns view (blockConstructor limit inner) none view :=
  (accept_returns_none h).bind .pure

theorem parenthesised_returns_none {view : List Reading}
    (h : Stops (isKind .leftParenthesis) view) :
    Returns view (parenthesised inner) none view :=
  (accept_returns_none h).bind .pure

theorem primary_returns_parenthesised {opening closing tree : Node} {view later : List Reading}
    (ho : Terminal .leftParenthesis opening)
    (ht : Returns view inner (some tree) (.ok closing :: later))
    (hc : Terminal .rightParenthesis closing) :
    Returns (.ok opening :: view) (primary limit inner) (some tree) later := by
  have hstop : Stops (isAnyOf [.identifier, .leftSquareBracket]) (.ok opening :: view) :=
    ho.stops (by decide) view
  exact (accept_returns_none (hstop.kind (by decide))).bind
    ((literal_returns_none (ho.stops (by decide) view)).bind
      ((blockConstructor_returns_none (hstop.kind (by decide))).bind
        ((accept_returns ho view).bind (ht.bind ((expect_returns hc _ later).bind .pure)))))

theorem primary_returns_none {view : List Reading}
    (h : Stops (isAnyOf (Phrase.firstKinds .primary)) view) :
    Returns view (primary limit inner) none view :=
  (accept_returns_none (h.kind (by decide))).bind
    ((literal_returns_none (h.anyOf (by decide))).bind
      ((blockConstructor_returns_none (h.kind (by decide))).bind
        (parenthesised_returns_none (h.kind (by decide)))))

/-! ### Absent parts -/

theorem many_returns_nil {item : Reader (Option α)} (h : Returns rest item none rest)
    (hl : (tokensIn rest).length < limit) : Returns rest (many item limit) [] rest := by
  cases limit with
  | zero => omega
  | succ limit => exact h.bind .pure

theorem keywordMessage_returns_none (h : Stops (isKind .keyword) rest) :
    Returns rest (keywordMessage limit inner) none rest := by
  have hsegment : Returns rest (keywordSegment limit inner) none rest := followedBy_returns_none h
  exact hsegment.bind .pure

theorem messages_returns_none (h : Stops (isAnyOf (Phrase.firstKinds .messages)) rest)
    (hl : (tokensIn rest).length < limit) : Returns rest (messages limit inner) none rest :=
  (many_returns_nil (accept_returns_none (h.kind (by decide))) hl).bind
    ((many_returns_nil (followedBy_returns_none (h.kind (by decide))) hl).bind
      ((keywordMessage_returns_none (h.kind (by decide))).bind .pure))

/-- An assignment needs a name and its sign behind it. -/
theorem assignment_returns_none {tokens : List Node} {receiver : Node}
    (h : Derivation .primary tokens receiver) (hr : Stops (isKind .assignment) rest) :
    Returns (tokens.map .ok ++ rest) (assignment inner) none (tokens.map .ok ++ rest) := by
  have hother : ∀ {token : Node} {kind : Kind} (view : List Reading), Terminal kind token →
      kind ∉ [Kind.identifier] → Returns (.ok token :: view) (assignment inner) none
        (.ok token :: view) := by
    intro token kind view ht hk
    have hstop : Stops (isAnyOf [.identifier]) (.ok token :: view) := ht.stops hk view
    exact (accept_returns_none (hstop.kind (by decide))).bind .pure
  cases h with
  | name ht =>
      exact (accept_returns ht rest).bind
        ((accept_returns_none hr).bind ((unread_returns ht.leaf rest).bind .pure))
  | integer ht => exact hother _ ht (by decide)
  | negative hm ht => exact hother _ hm.toTerminal (by decide)
  | string ht => exact hother _ ht (by decide)
  | block ho => exact hother _ ho (by decide)
  | parenthesised ho => exact hother _ ho (by decide)

theorem expressionStep_returns_none
    (h : Stops (isAnyOf (Phrase.firstKinds .expression)) rest) :
    Returns rest (expressionStep limit inner) none rest := by
  have hassignment : Returns rest (assignment inner) none rest :=
    (accept_returns_none (h.kind (by decide))).bind .pure
  exact hassignment.bind ((primary_returns_none h).bind .pure)

theorem statements_returns_none (h : Stops (isAnyOf (Phrase.firstKinds .program)) rest)
    (hi : Returns rest inner none rest) : Returns rest (statements limit inner) none rest := by
  have hanswer : Returns rest (returnStatement inner) none rest :=
    (accept_returns_none (h.kind (by decide))).bind .pure
  exact hanswer.bind (hi.bind .pure)

end MiniSmalltalk.Grammar
