import MiniSmalltalk.Proofs.Grammar.Heredity
import MiniSmalltalk.Proofs.Grammar.Parsing
import MiniSmalltalk.Proofs.Token.Placement
import MiniSmalltalk.Proofs.Token.Rendering

/-! # Selectors and their arguments

A message that is read has as many arguments as its selector asks for: none behind a name, one
behind a binary character, and behind a keyword selector one for each of its colons. -/

namespace MiniSmalltalk

open Token

/-! ### Tokens that lie ahead -/

theorem Token.Tiled.lexical {offset : Nat} {cs : List Char} {tokens : List Node}
    (h : Tiled offset cs tokens) : ∀ token ∈ tokens, Lexical token := by
  induction h with
  | gap => simp
  | token _ hw _ ih => exact List.forall_mem_cons.mpr ⟨⟨hw.leaf, hw.spelling.isTextOf⟩, ih⟩

theorem Cursor.lexical_of_mem_readings {cursor : Cursor} {token : Node}
    (h : .ok token ∈ cursor.readings) : Lexical token := by
  fun_induction readings cursor with
  | case1 => cases h
  | case2 cursor first queued behind hscan ih =>
      obtain ⟨used, -, -, htiled⟩ := scan_tiled hscan
      have hfound := htiled.lexical
      rcases List.mem_cons.mp h with hfirst | hrest
      · obtain rfl := Except.ok.inj hfirst
        exact hfound token (by simp)
      · rcases List.mem_append.mp hrest with hqueued | hlater
        · exact hfound token (List.mem_cons_of_mem _ (by simpa using hqueued))
        · exact ih hlater
  | case3 cursor character span behind hscan ih => exact ih (by simpa using h)
  | case4 => simp at h

/-- All tokens that lie ahead are ones that can be read. -/
def TokenStream.AllLexical (s : TokenStream) : Prop := ∀ token, .ok token ∈ s.ahead → Lexical token

theorem TokenStream.allLexical_ofString (source : String) : (ofString source).AllLexical :=
  fun _ h => Cursor.lexical_of_mem_readings h

theorem TokenStream.AllLexical.plain {s : TokenStream} (h : s.AllLexical) : s.Plain :=
  fun token hm => (h token (List.mem_append_left _ (List.mem_map_of_mem hm))).leaf

namespace Grammar

/-! ### Messages with the arguments of their selector -/

def keywordText (names : List (List Char)) : List Char := names.flatMap fun name => name ++ [':']

/-- A message with the arguments that its selector asks for. -/
inductive Sendable : Node → Prop where
  | unary {node : Node} : node.kind = .identifier → isName node.textOrEmpty.toList = true →
      node.children = [] → Sendable node
  | binary {node argument : Node} {c : Char} : node.kind = .binary → Token.isBinary c = true →
      node.textOrEmpty.toList = [c] → node.children = [some argument] → Sendable node
  | keyword {node : Node} {names : List (List Char)} {arguments : List Node} :
      node.kind = .keyword → names ≠ [] → (∀ name ∈ names, isName name = true) →
      node.textOrEmpty.toList = keywordText names → node.children = arguments.map some →
      arguments.length = names.length → Sendable node

/-- Every message of a run is sendable. -/
def Orderly (node : Node) : Prop :=
  node.kind = .messages → ∀ message, some message ∈ node.children → Sendable message

theorem orderly_of_kind {node : Node} (h : node.kind ≠ .messages) : Orderly node :=
  fun hk => absurd hk h

theorem orderly_of_isLeaf {node : Node} (h : node.isLeaf = true) : Orderly node := by
  intro _ message hm
  simp [Node.children_of_isLeaf h] at hm

/-- A name has nothing but letters and digits. -/
theorem isAlphanum_of_mem_name {name : List Char} (h : isName name = true) :
    ∀ c ∈ name, c.isAlphanum = true := by
  obtain ⟨c, ds, rfl, hc, hds⟩ := exists_name h
  exact List.forall_mem_cons.mpr ⟨by simp [Char.isAlphanum, hc], hds⟩

theorem count_colons {names : List (List Char)} (h : ∀ name ∈ names, isName name = true) :
    (keywordText names).count ':' = names.length := by
  induction names with
  | nil => rfl
  | cons name names ih =>
      obtain ⟨hname, hnames⟩ := List.forall_mem_cons.mp h
      have hnone : name.count ':' = 0 :=
        List.count_eq_zero.mpr fun hm => absurd (isAlphanum_of_mem_name hname _ hm) (by decide)
      have htail := ih hnames
      simp only [keywordText] at htail
      simp [keywordText, List.count_append, hnone, htail]

/-- The number of arguments of a message that is read. -/
theorem Sendable.length_children {node : Node} (h : Sendable node) :
    (node.kind = .identifier → node.children.length = 0) ∧
    (node.kind = .binary → node.children.length = 1) ∧
    (node.kind = .keyword → node.children.length = node.textOrEmpty.toList.count ':') := by
  cases h with
  | unary hk _ hc => simp [hk, hc]
  | binary hk _ _ hc => simp [hk, hc]
  | keyword hk _ hn ht hc hl => simp [hk, hc, hl, ht, count_colons hn]

/-! ### Messages that derivations form -/

section

variable {tokens : List Node}

/-- A token of a kind that always has a text is written as one of its kind. -/
theorem Terminal.isTextOf_textOrEmpty {kind : Kind} {token : Node} (h : Terminal kind token)
    (hl : Lexical token) (hk : isTextOf kind none = false) :
    isTextOf kind (some token.textOrEmpty) = true := by
  have htext := hl.text
  rw [h.kind_eq] at htext
  cases ht : token.text with
  | none => simp [ht, hk] at htext
  | some text => simpa [ht, Node.textOrEmpty] using htext

theorem Terminal.sendable {token : Node} (h : Terminal .identifier token) (hl : Lexical token) :
    Sendable token :=
  .unary h.kind_eq (h.isTextOf_textOrEmpty hl rfl) (Node.children_of_isLeaf h.leaf)

theorem Derivation.sendable {node : Node} (h : Derivation .binaryMessage tokens node)
    (hl : ∀ token ∈ tokens, Lexical token) : Sendable node := by
  cases h with
  | @binaryMessage selector argument _ hs _ =>
      have htext := hs.isTextOf_textOrEmpty (hl selector (by simp)) rfl
      rw [isTextOf, Bool.and_eq_true, beq_iff_eq] at htext
      obtain ⟨c, hc⟩ := List.length_eq_one_iff.mp htext.1
      exact .binary hs.kind_eq (List.all_eq_true.mp htext.2 c (by simp [hc])) hc rfl

/-- A segment has a name in front of its colon and one argument. -/
theorem Derivation.segment {segment : Node} (h : Derivation .keywordSegment tokens segment)
    (hl : ∀ token ∈ tokens, Lexical token) :
    ∃ name argument, isName name = true ∧ segment.textOrEmpty.toList = name ++ [':'] ∧
      segment.children = [some argument] := by
  cases h with
  | @keywordSegment selector argument _ hs _ =>
      have htext := hs.isTextOf_textOrEmpty (hl selector (by simp)) rfl
      rw [isTextOf, Bool.and_eq_true, beq_iff_eq] at htext
      exact ⟨selector.textOrEmpty.toList.dropLast, argument, htext.2, htext.1, rfl⟩

theorem exists_names {segments : List (Piece Node)}
    (hd : ∀ piece ∈ segments, Derivation .keywordSegment piece.tokens piece.value)
    (hl : ∀ token ∈ Piece.tokensOf segments, Lexical token) :
    ∃ (names : List (List Char)) (arguments : List Node), (∀ name ∈ names, isName name = true) ∧
      ((Piece.values segments).map Node.textOrEmpty).flatMap String.toList = keywordText names ∧
      (Piece.values segments).flatMap Node.children = arguments.map some ∧
      names.length = segments.length ∧ arguments.length = segments.length := by
  induction segments with
  | nil => exact ⟨[], [], by simp [keywordText]⟩
  | cons piece segments ih =>
      obtain ⟨hfirst, hothers⟩ := List.forall_mem_cons.mp hd
      rw [Piece.tokensOf_cons, List.forall_mem_append] at hl
      obtain ⟨names, arguments, hnames, htext, hchildren, hn, ha⟩ := ih hothers hl.2
      obtain ⟨name, argument, hname, hsegment, hargument⟩ := hfirst.segment hl.1
      refine ⟨name :: names, argument :: arguments, List.forall_mem_cons.mpr ⟨hname, hnames⟩, ?_⟩
      simp_all [keywordText]

theorem joined_sendable {segments : List (Piece Node)} (hne : segments ≠ [])
    (hd : ∀ piece ∈ segments, Derivation .keywordSegment piece.tokens piece.value)
    (hl : ∀ token ∈ Piece.tokensOf segments, Lexical token) :
    Sendable (.joined (Piece.values segments)) := by
  obtain ⟨names, arguments, hnames, htext, hchildren, hn, ha⟩ := exists_names hd hl
  refine .keyword rfl (List.length_pos_iff.mp ?_) hnames ?_ hchildren (ha.trans hn.symm)
  · rw [hn]
    exact List.length_pos_iff.mpr hne
  · rw [Node.textOrEmpty_joined, String.toList_join, htext]

theorem keywordPart_sendable {segments : List (Piece Node)}
    (hd : ∀ piece ∈ segments, Derivation .keywordSegment piece.tokens piece.value)
    (hl : ∀ token ∈ Piece.tokensOf segments, Lexical token) :
    ∀ message ∈ Node.keywordPart (Piece.values segments), Sendable message := by
  cases segments with
  | nil => simp [Node.keywordPart, Piece.values]
  | cons piece segments => exact List.forall_mem_singleton.mpr (joined_sendable (by simp) hd hl)

/-- The root of a tree is a run only where a run was derived, and then its messages are the ones
of the three parts. -/
theorem Derivation.orderly {phrase : Phrase} {tree : Node} (h : Derivation phrase tokens tree)
    (hl : ∀ token ∈ tokens, Lexical token) : Orderly tree := by
  induction h with
  | answer hc => exact orderly_of_kind (by simp [Node.atop, hc.kind_eq])
  | @statements _ _ _ others _ _ _ ih =>
      cases others with
      | nil => exact ih fun token hm => hl token (by simp [hm])
      | cons piece others => exact orderly_of_kind (by simp [Node.statementsOf, Node.compose])
  | nextStatement _ _ ih => exact ih fun token hm => hl token (by simp [hm])
  | assignment _ hs => exact orderly_of_kind (by simp [Node.atop, hs.kind_eq])
  | send => exact orderly_of_kind (by simp [Node.compose])
  | cascade _ _ ih => exact ih fun token hm => hl token (by simp [hm])
  | @messages unary binary segments hu hb hs =>
      simp only [List.forall_mem_append] at hl
      obtain ⟨hnames, hbinary, hsegments⟩ := hl
      have hall : ∀ message ∈ unary ++ (Piece.values binary ++
          Node.keywordPart (Piece.values segments)), Sendable message := by
        refine List.forall_mem_append.mpr ⟨fun name hm => (hu name hm).sendable (hnames name hm),
          List.forall_mem_append.mpr ⟨forall_values fun piece hm => ?_, ?_⟩⟩
        · exact (hb piece hm).sendable fun token ht => hbinary token (mem_tokensOf hm ht)
        · exact keywordPart_sendable hs hsegments
      exact fun _ message hm => hall message (by simpa [Node.compose] using hm)
  | binaryMessage hs => exact orderly_of_kind (by simp [Node.atop, hs.kind_eq])
  | keywordSegment hs => exact orderly_of_kind (by simp [Node.atop, hs.kind_eq])
  | name ht => exact orderly_of_isLeaf ht.leaf
  | integer ht => exact orderly_of_isLeaf ht.leaf
  | negative => exact orderly_of_isLeaf rfl
  | string ht => exact orderly_of_isLeaf ht.leaf
  | block => exact orderly_of_kind (by simp [Node.enclose])
  | parenthesised _ _ _ ih => exact ih fun token hm => hl token (by simp [hm])

theorem Formed.orderly {all : List Node} {node : Node} (h : Formed all node)
    (hl : ∀ token ∈ all, Lexical token) : Orderly node := by
  cases h with
  | name _ ht => exact orderly_of_isLeaf ht.leaf
  | phrase hi hd => exact hd.orderly fun token hm => hl token (hi.subset hm)
  | parameters _ hp =>
      cases hp
      exact orderly_of_kind (by simp [Node.compose])
  | temporaries _ ht =>
      cases ht
      exact orderly_of_kind (by simp [Node.enclose])
  | message => exact orderly_of_kind (by simp [Node.joined])

/-! ### Messages that productions give -/

/-- Tokens that can be read give a tree in which every run is orderly. -/
def Regular (tokens : List Node) (tree : Node) : Prop :=
  (∀ token ∈ tokens, Lexical token) → tree.Everywhere Orderly

theorem regular_of_formed {tree : Node} (h : tree.Everywhere (Formed tokens)) :
    Regular tokens tree :=
  fun hl => h.mono fun _ hf => hf.orderly hl

theorem regular_of_isLeaf {tree : Node} (h : tree.isLeaf = true) : Regular tokens tree :=
  fun _ => .leaf h (orderly_of_isLeaf h)

theorem Derivation.regular {phrase : Phrase} {tree : Node} (h : Derivation phrase tokens tree) :
    Regular tokens tree :=
  regular_of_formed (h.formed List.infix_rfl)

theorem Answer.regular {tree : Node} (h : Answer tokens tree) : Regular tokens tree := by
  cases h with
  | @mk _ _ words hc ht =>
      have hanswer := Derivation.answer hc ht .absent
      rw [List.append_nil] at hanswer
      exact hanswer.regular

theorem Declared.regular {tree : Node} (h : Declared tokens tree) : Regular tokens tree := by
  by_cases hleaf : tree.isLeaf = true
  · exact regular_of_isLeaf hleaf
  · have hnames : Temporaries tokens [tree] := by simpa [Declared, Option.filter, hleaf] using h
    exact regular_of_formed (hnames.formed List.infix_rfl tree (by simp))

theorem KeywordMessage.regular {tree : Node} (h : KeywordMessage tokens tree) :
    Regular tokens tree := by
  obtain ⟨segments, hne, rfl, rfl, hd⟩ := h
  obtain ⟨piece, others, rfl⟩ := List.exists_cons_of_ne_nil hne
  refine regular_of_formed (keywordPart_formed List.infix_rfl hd (fun piece hm => ?_) _
    (List.mem_singleton_self _))
  exact (hd piece hm).formed (infix_tokensOf hm List.infix_rfl)

theorem BlockParts.regular {parts : List Node} (h : BlockParts tokens parts) :
    Regular tokens ((Node.bare .block .origin).appendAll parts) := by
  by_cases hne : parts = []
  · subst hne
    exact regular_of_isLeaf rfl
  · rw [Node.appendAll_bare rfl .origin hne]
    cases h with
    | mk hpar htmp hbody =>
        intro hl
        simp only [List.forall_mem_append] at hl
        have hall : ∀ {names : List Node} {words : List Node},
            (∀ node ∈ names, node.Everywhere (Formed words)) → (∀ token ∈ words, Lexical token) →
            ∀ node ∈ names, node.Everywhere Orderly :=
          fun hf hw node hm => regular_of_formed (hf node hm) hw
        refine everywhere_of_parts rfl (orderly_of_kind (by simp [Node.compose])) ?_
        refine List.forall_mem_append.mpr ⟨hall (hpar.formed List.infix_rfl) hl.1,
          List.forall_mem_append.mpr ⟨hall (htmp.formed List.infix_rfl) hl.2.1,
            forall_values fun piece hm => ?_⟩⟩
        exact (hbody piece (Option.mem_toList.mp hm)).regular
          fun token ht => hl.2.2 token (mem_tokensOf hm ht)

end

/-- The productions that read a message on its own. -/
def Rule.readsMessage : Rule → Bool
  | .unaryMessage | .binaryMessage | .keywordMessage => true
  | _ => false

/-- The tree of a production has orderly runs, and is a message itself where it reads one. -/
def Gives (rule : Rule) (tokens : List Node) (tree : Node) : Prop :=
  Regular tokens tree ∧
    (rule.readsMessage = true → (∀ token ∈ tokens, Lexical token) → Sendable tree)

/-- A tree that is found comes from tokens of a language. -/
def Yields (language : List Node → Node → Prop) (view : List Reading) (found : Option Node)
    (later : List Reading) : Prop :=
  ∀ tree ∈ found, ∃ tokens : List Node, view = tokens.map .ok ++ later ∧ language tokens tree

section

variable {bound limit limit' : Nat} {inner inner' first second : Production} {view : List Reading}

theorem Reads.yields {language stronger : List Node → Node → Prop}
    (h : Reads view first second (Matched stronger view))
    (hl : ∀ tokens tree, stronger tokens tree → language tokens tree) :
    Reads view first second (Yields language view) := by
  apply h.mono
  rintro found later hm tree rfl
  obtain ⟨tokens, hv, -, ht⟩ := hm
  exact ⟨tokens, hv, hl tokens tree ht⟩

theorem gives_of_regular {rule : Rule} (hr : rule.readsMessage = false) {tokens : List Node}
    {tree : Node} (h : Regular tokens tree) : Gives rule tokens tree :=
  ⟨h, fun hm => absurd (hr.symm.trans hm) (by simp)⟩

theorem SingleToken.regular {kind : Kind} {tokens : List Node} {tree : Node}
    (h : SingleToken kind tokens tree) : Regular tokens tree :=
  regular_of_isLeaf h.2.leaf

theorem Parameter.regular {tokens : List Node} {tree : Node} (h : Parameter tokens tree) :
    Regular tokens tree := by
  cases h with
  | mk _ hn => exact regular_of_isLeaf hn.leaf

theorem read_yields (view : List Reading) : Reads view read read (Yields (Gives .token) view) := by
  apply (read_reads view).mono
  rintro found later h tree rfl
  obtain ⟨rfl, hleaf⟩ := h
  exact ⟨[tree], rfl, gives_of_regular rfl (regular_of_isLeaf hleaf)⟩

theorem blockBody_yields (hi : Inner (bound + 1) inner inner')
    (hb : (tokensIn view).length ≤ bound) (hl : bound < limit) (hl' : bound < limit') :
    Reads view (blockBody limit inner) (blockBody limit' inner')
      (Yields (Gives .blockBody) view) := by
  apply (blockBody_reads hi hb hl hl').mono
  rintro found later h tree rfl
  obtain ⟨tokens, parts, hv, hparts, rfl⟩ := h
  exact ⟨tokens, hv, gives_of_regular rfl hparts.regular⟩

theorem unaryMessage_yields (view : List Reading) :
    Reads view unaryMessage unaryMessage (Yields (Gives .unaryMessage) view) := by
  refine (accept_reads .identifier view).yields fun tokens tree h => ⟨h.regular, fun _ hl => ?_⟩
  obtain ⟨rfl, ht⟩ := h
  exact ht.sendable (hl tree (by simp))

theorem keywordMessage_yields (hi : Inner bound inner inner')
    (hb : (tokensIn view).length ≤ bound) (hl : bound < limit) (hl' : bound < limit') :
    Reads view (keywordMessage limit inner) (keywordMessage limit' inner')
      (Yields (Gives .keywordMessage) view) := by
  refine (keywordMessage_reads hi hb hl hl').yields fun tokens tree h => ⟨h.regular, fun _ hl => ?_⟩
  obtain ⟨segments, hne, rfl, rfl, hd⟩ := h
  exact joined_sendable hne hd hl

theorem Rule.readerWith_yields (rule : Rule) (hi : Inner (bound + 1) inner inner')
    (hb : (tokensIn view).length ≤ bound) (hl : bound < limit) (hl' : bound < limit') :
    Reads view (rule.readerWith limit inner) (rule.readerWith limit' inner')
      (Yields (Gives rule) view) := by
  have hi' : Inner bound inner inner' := hi.mono (Nat.le_succ bound)
  have hderived : ∀ {phrase : Phrase}, rule.readsMessage = false → ∀ tokens tree,
      Derivation phrase tokens tree → Gives rule tokens tree :=
    fun hr _ _ hd => gives_of_regular hr hd.regular
  have haccepted : ∀ {kind : Kind}, rule.readsMessage = false → ∀ tokens tree,
      SingleToken kind tokens tree → Gives rule tokens tree :=
    fun hr _ _ ht => gives_of_regular hr ht.regular
  cases rule with
  | token => exact read_yields view
  | program => exact (statements_reads hi hb hl hl').yields (hderived rfl)
  | temporaries =>
      exact (temporaries_reads (by omega) (by omega)).yields
        fun _ _ h => gives_of_regular rfl (Declared.regular h)
  | blockConstructor => exact (blockConstructor_reads hi' hb hl hl').yields (hderived rfl)
  | blockBody => exact blockBody_yields hi hb hl hl'
  | blockArgument =>
      exact (blockArgument_reads view).yields fun _ _ h => gives_of_regular rfl h.regular
  | statements => exact (statements_reads hi hb hl hl').yields (hderived rfl)
  | returnStatement =>
      exact (returnStatement_reads hi' hb).yields fun _ _ h => gives_of_regular rfl h.regular
  | expression => exact (hi view (Nat.lt_succ_of_le hb)).yields (hderived rfl)
  | assignment =>
      exact (assignment_reads hi' hb).yields
        fun _ _ h => gives_of_regular rfl h.derivation.regular
  | basicExpression => exact (basicExpression_reads hi' hb hl hl').yields (hderived rfl)
  | identifier => exact (accept_reads .identifier view).yields (haccepted rfl)
  | primary => exact (primary_reads hi' hb hl hl').yields (hderived rfl)
  | messages => exact (messages_reads hi' hb hl hl').yields (hderived rfl)
  | unaryMessage => exact unaryMessage_yields view
  | binaryMessage =>
      exact (binaryMessage_reads hi' hb hl hl').yields
        fun _ _ h => ⟨h.regular, fun _ hl => h.sendable hl⟩
  | binarySelector => exact (accept_reads .binary view).yields (haccepted rfl)
  | binaryArgument => exact (primary_reads hi' hb hl hl').yields (hderived rfl)
  | keywordMessage => exact keywordMessage_yields hi' hb hl hl'
  | keyword => exact (accept_reads .keyword view).yields (haccepted rfl)
  | keywordArgument => exact (primary_reads hi' hb hl hl').yields (hderived rfl)
  | literal => exact (literal_reads view).yields (hderived rfl)
  | numberLiteral => exact (numberLiteral_reads view).yields (hderived rfl)
  | integer => exact (accept_reads .integer view).yields (haccepted rfl)
  | stringLiteral => exact (accept_reads .string view).yields (haccepted rfl)

end

/-- Whatever a production gives for tokens that can be read is orderly. -/
theorem Rule.reader_gives {rule : Rule} {s behind : TokenStream} (hs : s.AllLexical) {tree : Node}
    (h : rule.reader s = .ok (some tree) behind) :
    tree.Everywhere Orderly ∧ (rule.readsMessage = true → Sendable tree) := by
  have hi := inner_expressionOver (return none) (return none) (Nat.lt_succ_self s.size)
    (Nat.lt_succ_self s.size)
  rw [← expressionUpTo_eq] at hi
  have hlt := Nat.lt_succ_self s.size
  have hreads := rule.readerWith_yields hi s.length_tokensIn_ahead_le hlt hlt
  obtain ⟨tokens, hv, hregular, hmessage⟩ := (hreads.of_ok hs.plain rfl h).2 tree rfl
  have hl : ∀ token ∈ tokens, Lexical token := fun token hm => hs token (by simp [hv, hm])
  exact ⟨hregular hl, fun hr => hmessage hr hl⟩

def givenTree : EStateM.Result SyntaxFault TokenStream (Option Node) → Option Node
  | .ok found _ => found
  | .error _ _ => none

theorem exists_of_givenTree {result : EStateM.Result SyntaxFault TokenStream (Option Node)}
    {tree : Node} (h : givenTree result = some tree) :
    ∃ behind, result = .ok (some tree) behind := by
  cases result with
  | ok found behind => exact ⟨behind, by rw [show found = some tree from h]⟩
  | error fault behind => cases h

/-- The messages that can be read: those that a production gives on their own, and those in a run
somewhere in the tree that it gives. -/
inductive ReadMessage : Node → Prop where
  | alone {rule : Rule} {s behind : TokenStream} {message : Node} : s.AllLexical →
      rule.readsMessage = true → rule.reader s = .ok (some message) behind → ReadMessage message
  | inside {rule : Rule} {s behind : TokenStream} {tree run message : Node} : s.AllLexical →
      rule.reader s = .ok (some tree) behind → tree.Contains run → run.kind = .messages →
      some message ∈ run.children → ReadMessage message

theorem ReadMessage.sendable {message : Node} (h : ReadMessage message) : Sendable message := by
  cases h with
  | alone hs hr h => exact (Rule.reader_gives hs h).2 hr
  | inside hs h hc hk hm =>
      exact Node.everywhere_iff_contains.mp (Rule.reader_gives hs h).1 _ hc hk _ hm

/-- The messages of every program are among those that can be read. -/
theorem readMessage_of_parseProgram {source : String} {parsed : Parsed} {tree run message : Node}
    (h : parseProgram source = .ok parsed) (ht : parsed.program = some tree)
    (hc : tree.Contains run) (hk : run.kind = .messages) (hm : some message ∈ run.children) :
    ReadMessage message := by
  obtain ⟨middle, -, hr, -⟩ := parseProgram_inv h
  rw [ht] at hr
  exact .inside (TokenStream.allLexical_ofString source) hr hc hk hm

end Grammar

end MiniSmalltalk
