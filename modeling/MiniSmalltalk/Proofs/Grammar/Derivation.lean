import MiniSmalltalk.Grammar.Production
import MiniSmalltalk.Proofs.Grammar.Reads

/-! # Derivations

The grammar as a relation between tokens and trees, with one rule for each alternative of
a production. No rule invokes a reader, and trees are written down whole where readers build
them up step by step. -/

namespace MiniSmalltalk

namespace Node

/-- The smallest span that covers nodes. -/
def cover : List Node → Span
  | [] => .origin
  | first :: others => others.foldl (fun span node => span.merge node.span) first.span

/-- A construct over its parts. -/
def compose (kind : Kind) (parts : List Node) : Node := ⟨kind, none, parts.map some, cover parts⟩

/-- A token that has become the parent of other nodes. -/
def atop (token : Node) (parts : List Node) : Node :=
  ⟨token.kind, token.text, parts.map some, cover (token :: parts)⟩

def enclose (kind : Kind) (opening closing : Node) (parts : List Node) : Node :=
  ⟨kind, none, parts.map some, opening.span.merge closing.span⟩

/-- The text of a selector with the given segments. -/
def selectorText : List Node → Option String
  | [only] => only.text
  | several => some (String.join (several.map textOrEmpty))

/-- The message whose segments each carry one argument. -/
def joined (segments : List Node) : Node :=
  ⟨.keyword, selectorText segments, segments.flatMap children, cover segments⟩

/-- The message of a run that its segments form, if there are any. -/
def keywordPart : List Node → List Node
  | [] => []
  | segments => [joined segments]

/-- Statements in a row; one alone stands for itself. -/
def statementsOf : List Node → Node
  | [only] => only
  | several => compose .statements several

end Node

namespace Grammar

structure Terminal (kind : Kind) (token : Node) : Prop where
  kind_eq : token.kind = kind
  leaf : token.isLeaf = true

structure Selector (text : String) (token : Node) : Prop extends Terminal .binary token where
  text_eq : token.textOrEmpty = text

inductive Optionally (kind : Kind) : List Node → Prop where
  | absent : Optionally kind []
  | present {token : Node} : Terminal kind token → Optionally kind [token]

/-- The parts of a program that can contain one another. -/
inductive Phrase where
  | program
  | nextStatement
  | expression
  | cascade
  | messages
  | binaryMessage
  | keywordSegment
  | primary
  deriving DecidableEq

/-- Reads `':' identifier` as the name. -/
inductive Parameter : List Node → Node → Prop where
  | mk {colon name : Node} : Terminal .colon colon → Terminal .identifier name →
      Parameter [colon, name] name

/-- Reads `((':' identifier)+ '|')?`. -/
inductive Parameters : List Node → List Node → Prop where
  | absent : Parameters [] []
  | present {pieces : List (Piece Node)} {bar : Node} : pieces ≠ [] →
      (∀ piece ∈ pieces, Parameter piece.tokens piece.value) → Selector "|" bar →
      Parameters (Piece.tokensOf pieces ++ [bar])
        [.compose .blockArguments (Piece.values pieces)]

/-- Reads `('|' identifier* '|')?`. Bars with nothing between them declare nothing. -/
inductive Temporaries : List Node → List Node → Prop where
  | absent : Temporaries [] []
  | none {opening closing : Node} : Selector "|" opening → Selector "|" closing →
      Temporaries [opening, closing] []
  | present {opening closing : Node} {names : List Node} : names ≠ [] → Selector "|" opening →
      (∀ name ∈ names, Terminal .identifier name) → Selector "|" closing →
      Temporaries (opening :: (names ++ [closing])) [.enclose .temporaries opening closing names]

/-- Tokens derive from a phrase with a tree. -/
inductive Derivation : Phrase → List Node → Node → Prop where
  /-- `'^' expression '.'?` -/
  | answer {caret tree : Node} {tokens last : List Node} : Terminal .answer caret →
      Derivation .expression tokens tree → Optionally .dot last →
      Derivation .program (caret :: (tokens ++ last)) (caret.atop [tree])
  /-- `expression ('.' expression)* '.'?` -/
  | statements {first : Node} {tokens last : List Node} {others : List (Piece Node)} :
      Derivation .expression tokens first →
      (∀ piece ∈ others, Derivation .nextStatement piece.tokens piece.value) →
      Optionally .dot last →
      Derivation .program (tokens ++ (Piece.tokensOf others ++ last))
        (.statementsOf (first :: Piece.values others))
  /-- `'.' expression` -/
  | nextStatement {dot tree : Node} {tokens : List Node} : Terminal .dot dot →
      Derivation .expression tokens tree → Derivation .nextStatement (dot :: tokens) tree
  /-- `identifier ':=' expression` -/
  | assignment {name sign tree : Node} {tokens : List Node} : Terminal .identifier name →
      Terminal .assignment sign → Derivation .expression tokens tree →
      Derivation .expression (name :: sign :: tokens) (sign.atop [name, tree])
  /-- `primary messages? (';' messages)*` -/
  | send {receiver : Node} {tokens : List Node} {run : Option (Piece Node)}
      {cascades : List (Piece Node)} : Derivation .primary tokens receiver →
      (∀ piece ∈ run, Derivation .messages piece.tokens piece.value) →
      (∀ piece ∈ cascades, Derivation .cascade piece.tokens piece.value) →
      Derivation .expression
        (tokens ++ (Piece.tokensOf run.toList ++ Piece.tokensOf cascades))
        (.compose .expression (receiver :: (Piece.values run.toList ++ Piece.values cascades)))
  /-- `';' messages` -/
  | cascade {semicolon run : Node} {tokens : List Node} : Terminal .semicolon semicolon →
      Derivation .messages tokens run → Derivation .cascade (semicolon :: tokens) run
  /-- `unary* (binary primary)* (keyword primary)*`, not empty -/
  | messages {unary : List Node} {binary segments : List (Piece Node)} :
      (∀ name ∈ unary, Terminal .identifier name) →
      (∀ piece ∈ binary, Derivation .binaryMessage piece.tokens piece.value) →
      (∀ piece ∈ segments, Derivation .keywordSegment piece.tokens piece.value) →
      (unary ≠ [] ∨ binary ≠ [] ∨ segments ≠ []) →
      Derivation .messages (unary ++ (Piece.tokensOf binary ++ Piece.tokensOf segments))
        (.compose .messages
          (unary ++ (Piece.values binary ++ Node.keywordPart (Piece.values segments))))
  | binaryMessage {selector argument : Node} {tokens : List Node} : Terminal .binary selector →
      Derivation .primary tokens argument →
      Derivation .binaryMessage (selector :: tokens) (selector.atop [argument])
  | keywordSegment {selector argument : Node} {tokens : List Node} :
      Terminal .keyword selector → Derivation .primary tokens argument →
      Derivation .keywordSegment (selector :: tokens) (selector.atop [argument])
  | name {token : Node} : Terminal .identifier token → Derivation .primary [token] token
  | integer {token : Node} : Terminal .integer token → Derivation .primary [token] token
  /-- The sign joins the text. -/
  | negative {minus token : Node} : Selector "-" minus → Terminal .integer token →
      Derivation .primary [minus, token]
        ⟨.integer, some ("-" ++ token.textOrEmpty), [], Node.cover [minus, token]⟩
  | string {token : Node} : Terminal .string token → Derivation .primary [token] token
  /-- `'[' parameters temporaries program? ']'` -/
  | block {opening closing : Node} {tokens tokens' arguments names : List Node}
      {body : Option (Piece Node)} : Terminal .leftSquareBracket opening →
      Parameters tokens arguments → Temporaries tokens' names →
      (∀ piece ∈ body, Derivation .program piece.tokens piece.value) →
      Terminal .rightSquareBracket closing →
      Derivation .primary
        (opening :: (tokens ++ (tokens' ++ (Piece.tokensOf body.toList ++ [closing]))))
        (.enclose .block opening closing (arguments ++ (names ++ Piece.values body.toList)))
  /-- `'(' expression ')'`, of which only the expression remains -/
  | parenthesised {opening closing tree : Node} {tokens : List Node} :
      Terminal .leftParenthesis opening → Derivation .expression tokens tree →
      Terminal .rightParenthesis closing →
      Derivation .primary (opening :: (tokens ++ [closing])) tree

/-! ### First tokens -/

/-- The kinds of the tokens that a phrase begins with. -/
def Phrase.firstKinds : Phrase → List Kind
  | .program =>
      [.answer, .identifier, .integer, .binary, .string, .leftSquareBracket, .leftParenthesis]
  | .expression | .primary =>
      [.identifier, .integer, .binary, .string, .leftSquareBracket, .leftParenthesis]
  | .messages => [.identifier, .binary, .keyword]
  | .nextStatement => [.dot]
  | .cascade => [.semicolon]
  | .binaryMessage => [.binary]
  | .keywordSegment => [.keyword]

/-- Whether a token can begin a phrase. A binary selector in front of anything but messages is
a sign. -/
structure Begins (phrase : Phrase) (token : Node) : Prop where
  leaf : token.isLeaf = true
  kind_mem : token.kind ∈ phrase.firstKinds
  sign : phrase ≠ .messages → phrase ≠ .binaryMessage → token.kind = .binary →
    token.textOrEmpty = "-"

theorem Terminal.begins {kind : Kind} {token : Node} {phrase : Phrase} (h : Terminal kind token)
    (hk : kind ∈ phrase.firstKinds)
    (hs : kind = .binary → phrase = .messages ∨ phrase = .binaryMessage) :
    Begins phrase token := by
  refine ⟨h.leaf, h.kind_eq ▸ hk, ?_⟩
  intro hm hb hkind
  rcases hs (h.kind_eq ▸ hkind) with rfl | rfl
  · exact absurd rfl hm
  · exact absurd rfl hb

theorem Derivation.begins {phrase : Phrase} {tokens : List Node} {tree : Node}
    (h : Derivation phrase tokens tree) :
    ∃ token words, tokens = token :: words ∧ Begins phrase token := by
  induction h with
  | answer hc => exact ⟨_, _, rfl, hc.begins (by decide) (by decide)⟩
  | statements _ _ _ ih =>
      obtain ⟨token, words, rfl, hb⟩ := ih
      refine ⟨token, _, rfl, hb.leaf, ?_, fun _ _ => hb.sign (by decide) (by decide)⟩
      exact List.mem_cons_of_mem _ hb.kind_mem
  | nextStatement hd => exact ⟨_, _, rfl, hd.begins (by decide) (by decide)⟩
  | assignment hn => exact ⟨_, _, rfl, hn.begins (by decide) (by decide)⟩
  | send _ _ _ ih =>
      obtain ⟨token, words, rfl, hb⟩ := ih
      exact ⟨token, _, rfl, hb.leaf, hb.kind_mem, fun _ _ => hb.sign (by decide) (by decide)⟩
  | cascade hs => exact ⟨_, _, rfl, hs.begins (by decide) (by decide)⟩
  | @messages unary binary segments hu _ _ hne ihb ihs =>
      cases unary with
      | cons name unary => exact ⟨name, _, rfl, (hu name (by simp)).begins (by decide) (by decide)⟩
      | nil =>
          cases binary with
          | cons piece binary =>
              obtain ⟨token, words, ht, hb⟩ := ihb piece (by simp)
              refine ⟨token, words ++ (Piece.tokensOf binary ++ Piece.tokensOf segments),
                by simp [ht], hb.leaf, ?_, fun hm => absurd rfl hm⟩
              have hk := hb.kind_mem
              simp_all [Phrase.firstKinds]
          | nil =>
              cases segments with
              | cons piece segments =>
                  obtain ⟨token, words, ht, hb⟩ := ihs piece (by simp)
                  refine ⟨token, words ++ Piece.tokensOf segments, by simp [ht], hb.leaf, ?_,
                    fun hm => absurd rfl hm⟩
                  have hk := hb.kind_mem
                  simp_all [Phrase.firstKinds]
              | nil => simp at hne
  | binaryMessage hs => exact ⟨_, _, rfl, hs.begins (by decide) (by decide)⟩
  | keywordSegment hs => exact ⟨_, _, rfl, hs.begins (by decide) (by decide)⟩
  | name ht => exact ⟨_, _, rfl, ht.begins (by decide) (by decide)⟩
  | integer ht => exact ⟨_, _, rfl, ht.begins (by decide) (by decide)⟩
  | negative hm =>
      refine ⟨_, _, rfl, hm.leaf, ?_, fun _ _ _ => hm.text_eq⟩
      simp [hm.kind_eq, Phrase.firstKinds]
  | string ht => exact ⟨_, _, rfl, ht.begins (by decide) (by decide)⟩
  | block ho => exact ⟨_, _, rfl, ho.begins (by decide) (by decide)⟩
  | parenthesised ho => exact ⟨_, _, rfl, ho.begins (by decide) (by decide)⟩

theorem Derivation.tokens_ne_nil {phrase : Phrase} {tokens : List Node} {tree : Node}
    (h : Derivation phrase tokens tree) : tokens ≠ [] := by
  obtain ⟨token, words, rfl, -⟩ := h.begins
  simp

/-! ### Tokens have no children -/

theorem Piece.forall_mem_tokensOf {α : Type} {pieces : List (Piece α)} {holds : Node → Prop}
    (h : ∀ piece ∈ pieces, ∀ token ∈ piece.tokens, holds token) :
    ∀ token ∈ Piece.tokensOf pieces, holds token := by
  intro token hm
  obtain ⟨piece, hp, ht⟩ := List.mem_flatMap.mp hm
  exact h piece hp token ht

theorem Optionally.leaves {kind : Kind} {tokens : List Node} (h : Optionally kind tokens) :
    ∀ token ∈ tokens, token.isLeaf = true := by
  cases h with
  | absent => simp
  | present ht => simp [ht.leaf]

theorem Parameters.leaves {tokens arguments : List Node} (h : Parameters tokens arguments) :
    ∀ token ∈ tokens, token.isLeaf = true := by
  have hparameter : ∀ {tokens : List Node} {name : Node}, Parameter tokens name →
      ∀ token ∈ tokens, token.isLeaf = true := by
    rintro tokens name ⟨hc, hn⟩
    simp [hc.leaf, hn.leaf]
  cases h with
  | absent => simp
  | present _ hp hb =>
      simp only [List.forall_mem_append, List.forall_mem_singleton]
      exact ⟨Piece.forall_mem_tokensOf fun piece hm => hparameter (hp piece hm), hb.leaf⟩

theorem Temporaries.leaves {tokens names : List Node} (h : Temporaries tokens names) :
    ∀ token ∈ tokens, token.isLeaf = true := by
  cases h with
  | absent => simp
  | none ho hc => simp [ho.leaf, hc.leaf]
  | present _ ho hn hc =>
      simp only [List.forall_mem_cons, List.forall_mem_append]
      exact ⟨ho.leaf, fun name hm => (hn name hm).leaf, hc.leaf, by simp⟩

theorem Derivation.leaves {phrase : Phrase} {tokens : List Node} {tree : Node}
    (h : Derivation phrase tokens tree) : ∀ token ∈ tokens, token.isLeaf = true := by
  induction h with
  | answer hc _ hl ih =>
      simp only [List.forall_mem_cons, List.forall_mem_append]
      exact ⟨hc.leaf, ih, hl.leaves⟩
  | statements _ _ hl ihf iho =>
      simp only [List.forall_mem_append]
      exact ⟨ihf, Piece.forall_mem_tokensOf iho, hl.leaves⟩
  | nextStatement hd _ ih => simpa [hd.leaf] using ih
  | assignment hn hs _ ih => simpa [hn.leaf, hs.leaf] using ih
  | @send _ _ run cascades _ _ _ ihd ihr ihc =>
      have hrun : ∀ piece ∈ run.toList, ∀ token ∈ piece.tokens, token.isLeaf = true := by
        simpa using ihr
      simp only [List.forall_mem_append]
      exact ⟨ihd, Piece.forall_mem_tokensOf hrun, Piece.forall_mem_tokensOf ihc⟩
  | cascade hs _ ih => simpa [hs.leaf] using ih
  | messages hu _ _ _ ihb ihs =>
      simp only [List.forall_mem_append]
      exact ⟨fun name hm => (hu name hm).leaf, Piece.forall_mem_tokensOf ihb,
        Piece.forall_mem_tokensOf ihs⟩
  | binaryMessage hs _ ih => simpa [hs.leaf] using ih
  | keywordSegment hs _ ih => simpa [hs.leaf] using ih
  | name ht => simp [ht.leaf]
  | integer ht => simp [ht.leaf]
  | negative hm ht => simp [hm.leaf, ht.leaf]
  | string ht => simp [ht.leaf]
  | @block _ _ _ _ _ _ body ho hpar htmp _ hc ih =>
      have hbody : ∀ piece ∈ body.toList, ∀ token ∈ piece.tokens, token.isLeaf = true := by
        simpa using ih
      simp only [List.forall_mem_cons, List.forall_mem_append]
      exact ⟨ho.leaf, hpar.leaves, htmp.leaves, Piece.forall_mem_tokensOf hbody, hc.leaf,
        by simp⟩
  | parenthesised ho _ hc ih =>
      simp only [List.forall_mem_cons, List.forall_mem_append]
      exact ⟨ho.leaf, ih, hc.leaf, by simp⟩

end Grammar

end MiniSmalltalk
