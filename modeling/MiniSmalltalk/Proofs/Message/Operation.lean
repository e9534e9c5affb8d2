import MiniSmalltalk.Proofs.Grammar.Cascade
import MiniSmalltalk.Proofs.Grammar.Selectors
import MiniSmalltalk.Proofs.Session.Layout

/-! # Operations and their selectors

An operation is named after its selector, and the name tells which selector it was: colons become
underscores, and no selector has an underscore of its own. The exceptions are the few binary
selectors whose operations have the names of unary ones. -/

namespace MiniSmalltalk

open Grammar Token

/-- The binary selectors whose operations have names, with these names. -/
def namedBinaries : List (String × String) :=
  [("+", "add"), ("-", "subtract"), ("*", "multiply"), ("/", "divide"), (",", "concat")]

/-- A name, a binary character, or names that each have a colon behind them. -/
inductive IsSelector (selector : String) : Prop where
  | name : isName selector.toList = true → IsSelector selector
  | binary {c : Char} : Token.isBinary c = true → selector.toList = [c] → IsSelector selector
  | keyword {names : List (List Char)} : names ≠ [] → (∀ name ∈ names, isName name = true) →
      selector.toList = keywordText names → IsSelector selector

/-- A message with the selector stands in the program of the source. -/
def SentIn (source selector : String) : Prop :=
  ∃ parsed tree run message, parseProgram source = .ok parsed ∧ parsed.program = some tree ∧
    tree.Contains run ∧ run.kind = .messages ∧ some message ∈ run.children ∧
    message.textOrEmpty = selector

/-! ### From operations back to selectors -/

/-- Reads an operation back: its underscores were colons. -/
def spelledOut (operation : String) : String :=
  String.ofList (operation.toList.map fun c => if c = '_' then ':' else c)

/-- An operation is read back as its selector, or as the name of a binary one. -/
theorem spelledOut_operationName {selector : String} (h : '_' ∉ selector.toList) :
    spelledOut (operationName selector) = selector ∨
      (selector, spelledOut (operationName selector)) ∈ namedBinaries := by
  have hback : (selector.toList.map fun c => if c = ':' then '_' else c).map
      (fun c => if c = '_' then ':' else c) = selector.toList := by
    rw [List.map_map]
    refine (List.map_congr_left fun c hc => ?_).trans (List.map_id _)
    have hne : c ≠ '_' := fun he => h (he ▸ hc)
    by_cases hcolon : c = ':' <;> simp [hcolon, hne]
  unfold operationName
  split
  case h_6 => exact .inl (by rw [spelledOut, String.toList_ofList, hback, String.ofList_toList])
  all_goals exact .inr (by decide)

/-- No two binary selectors share a name. -/
theorem eq_of_mem_namedBinaries {selector other name : String}
    (h : (selector, name) ∈ namedBinaries) (h' : (other, name) ∈ namedBinaries) :
    selector = other :=
  (by decide : ∀ first ∈ namedBinaries, ∀ second ∈ namedBinaries,
    first.2 = second.2 → first.1 = second.1) _ h _ h' rfl

theorem operationName_of_mem_namedBinaries {selector name : String}
    (h : (selector, name) ∈ namedBinaries) : operationName selector = operationName name :=
  (by decide : ∀ pair ∈ namedBinaries, operationName pair.1 = operationName pair.2) _ h

/-- Without underscores, selectors share an operation only as the table has it. -/
theorem operationName_eq_iff {selector other : String} (h : '_' ∉ selector.toList)
    (h' : '_' ∉ other.toList) :
    operationName selector = operationName other ↔
      selector = other ∨ (selector, other) ∈ namedBinaries ∨ (other, selector) ∈ namedBinaries := by
  constructor
  · intro heq
    have hother := spelledOut_operationName h'
    rw [← heq] at hother
    -- Both are the spelled out selector or a binary one with that name.
    rcases spelledOut_operationName h with hsame | hnamed
    · rw [hsame] at hother
      exact hother.imp id .inr
    · rcases hother with hsame | hnamed'
      · exact .inr (.inl (hsame ▸ hnamed))
      · exact .inl (eq_of_mem_namedBinaries hnamed hnamed')
  · rintro (rfl | hnamed | hnamed)
    · rfl
    · exact operationName_of_mem_namedBinaries hnamed
    · exact (operationName_of_mem_namedBinaries hnamed).symm

/-! ### Characters of selectors -/

theorem underscore_notMem_of_isName {name : List Char} (h : isName name = true) : '_' ∉ name :=
  fun hm => absurd (isAlphanum_of_mem_name h _ hm) (by decide)

theorem IsSelector.underscore_notMem {selector : String} (h : IsSelector selector) :
    '_' ∉ selector.toList := by
  cases h with
  | name hn => exact underscore_notMem_of_isName hn
  | @binary c hc ht =>
      rw [ht, List.mem_singleton]
      rintro rfl
      exact absurd hc (by decide)
  | keyword _ hn ht =>
      rw [ht, keywordText, List.mem_flatMap]
      rintro ⟨name, hname, hm⟩
      rcases List.mem_append.mp hm with hm | hm
      · exact underscore_notMem_of_isName (hn name hname) hm
      · exact absurd (List.mem_singleton.mp hm) (by decide)

/-! ### Selectors that are read -/

theorem Grammar.ReadMessage.isSelector {message : Node} (h : ReadMessage message) :
    IsSelector message.textOrEmpty := by
  cases h.sendable with
  | unary _ hn _ => exact .name hn
  | binary _ hc ht _ => exact .binary hc ht
  | keyword _ hne hn ht _ _ => exact .keyword hne hn ht

theorem SentIn.isSelector {source selector : String} (h : SentIn source selector) :
    IsSelector selector := by
  obtain ⟨parsed, tree, run, message, hp, ht, hc, hk, hm, rfl⟩ := h
  exact (readMessage_of_parseProgram hp ht hc hk hm).isSelector

/-! ### Selectors that are written -/

theorem nameToken_lexical {name : String} (h : isName name.toList = true) :
    Lexical (.nameToken name) :=
  ⟨rfl, h⟩

def segmentOf (name : List Char) : Piece Node :=
  let token : Node := .leaf .keyword (String.ofList (name ++ [':'])) .origin
  ⟨[token, .nameToken "x"], token.atop [.nameToken "x"]⟩

theorem segmentOf_derivation (name : List Char) :
    Derivation .keywordSegment (segmentOf name).tokens (segmentOf name).value :=
  .keywordSegment ⟨rfl, rfl⟩ (.name ⟨rfl, rfl⟩)

theorem segmentOf_lexical {name : List Char} (h : isName name = true) :
    ∀ token ∈ (segmentOf name).tokens, Lexical token := by
  have hkeyword : Lexical (.leaf .keyword (String.ofList (name ++ [':'])) .origin) :=
    ⟨rfl, by simpa [Node.leaf, isTextOf] using h⟩
  have hargument : Lexical (.nameToken "x") := nameToken_lexical (by decide)
  simpa [segmentOf] using And.intro hkeyword hargument

theorem textOrEmpty_segments (names : List (List Char)) :
    (Node.joined (Piece.values (names.map segmentOf))).textOrEmpty.toList = keywordText names := by
  rw [Node.textOrEmpty_joined, String.toList_join]
  simp [Piece.values, keywordText, segmentOf, Node.atop, Node.leaf, Node.textOrEmpty,
    List.flatMap_map]

/-- Every selector is the one of a message that can be written down. -/
theorem IsSelector.exists_message {selector : String} (h : IsSelector selector) :
    ∃ tokens message, OneMessage tokens message ∧ (∀ token ∈ tokens, Lexical token) ∧
      message.textOrEmpty = selector := by
  cases h with
  | name hn =>
      exact ⟨[.nameToken selector], _, .unary ⟨rfl, rfl⟩, by simpa using nameToken_lexical hn, rfl⟩
  | @binary c hc ht =>
      have hsign : Lexical (.leaf .binary selector .origin) :=
        ⟨rfl, by simp [Node.leaf, isTextOf, ht, hc]⟩
      have hargument : Lexical (.nameToken "x") := nameToken_lexical (by decide)
      have hmessage : Derivation .binaryMessage [.leaf .binary selector .origin, .nameToken "x"]
          (.atop (.leaf .binary selector .origin) [.nameToken "x"]) :=
        .binaryMessage ⟨rfl, rfl⟩ (.name ⟨rfl, rfl⟩)
      exact ⟨_, _, .binary hmessage, by simpa using ⟨hsign, hargument⟩, rfl⟩
  | @keyword names hne hn ht =>
      have hsegments : ∀ piece ∈ names.map segmentOf,
          Derivation .keywordSegment piece.tokens piece.value :=
        List.forall_mem_map.mpr fun name _ => segmentOf_derivation name
      have hlexical : ∀ piece ∈ names.map segmentOf, ∀ token ∈ piece.tokens, Lexical token :=
        List.forall_mem_map.mpr fun name hm => segmentOf_lexical (hn name hm)
      refine ⟨_, _, .keyword (by simpa using hne) hsegments, Piece.forall_mem_tokensOf hlexical, ?_⟩
      exact String.toList_inj.mp ((textOrEmpty_segments names).trans ht.symm)

/-- A message that is sent to a name is a program. -/
theorem sentIn_of_oneMessage {tokens : List Node} {message : Node} (h : OneMessage tokens message)
    (hl : ∀ token ∈ tokens, Lexical token) : ∃ source, SentIn source message.textOrEmpty := by
  have hwritten : ∀ token ∈ Node.nameToken "x" :: tokens, Lexical token :=
    List.forall_mem_cons.mpr ⟨nameToken_lexical (by decide), hl⟩
  obtain ⟨found, hfound, hwords⟩ := tokenize_renderAll hwritten
  have halike := alike_of_leaves (fun token hm => (hwritten token hm).leaf)
    (fun token hm => (lexical_of_tokenize hfound token hm).leaf) hwords
  have hexpression := @Derivation.send (.nameToken "x") _ (some ⟨tokens, _⟩) [] (.name ⟨rfl, rfl⟩)
    (by rintro piece ⟨⟩; exact h.run) (by simp)
  obtain ⟨laid, hlaid, hparsed⟩ := parseProgram_of_alike hfound halike
    (by simpa using program_of_expression hexpression)
  obtain ⟨run, hr, hmessages⟩ :=
    @Node.exists_child_of_placeless _ _ (.compose .messages [message]) hlaid 1 rfl
  obtain ⟨sent, hs, hsent⟩ := @Node.exists_child_of_placeless _ _ message hmessages 0 rfl
  refine ⟨_, _, laid, run, sent, hparsed, rfl, .child .root (Node.mem_of_child? hr), ?_,
    Node.mem_of_child? hs, ?_⟩
  · simpa [Node.compose] using congrArg Node.kind hmessages
  · simpa using congrArg Node.textOrEmpty hsent

/-- Every selector is sent in some program. -/
theorem IsSelector.sentIn {selector : String} (h : IsSelector selector) :
    ∃ source, SentIn source selector := by
  obtain ⟨tokens, message, hone, hlexical, rfl⟩ := h.exists_message
  exact sentIn_of_oneMessage hone hlexical

/-- The selectors in programs are names, binary characters and names that each have a colon behind
them, and no production reads any other. Two of them have the same operation only if they are the
same, or one is a binary selector and the other the name of its operation. -/
theorem operations_collide_only_in_table :
    (∀ selector : String, IsSelector selector ↔ ∃ source, SentIn source selector) ∧
    (∀ message : Node, ReadMessage message → IsSelector message.textOrEmpty) ∧
    ∀ selector other : String, IsSelector selector → IsSelector other →
      (operationName selector = operationName other ↔
        selector = other ∨ (selector, other) ∈ namedBinaries ∨
          (other, selector) ∈ namedBinaries) := by
  refine ⟨fun selector => ⟨fun h => h.sentIn, ?_⟩, fun message h => h.isSelector, ?_⟩
  · rintro ⟨source, h⟩
    exact h.isSelector
  · intro selector other h h'
    exact operationName_eq_iff h.underscore_notMem h'.underscore_notMem

/-- The segments of a selector show in its operation; that it is a binary one need not. -/
theorem operations_collide_only_in_table_segments :
    (∃ message, ReadMessage message ∧ message.textOrEmpty = "at:put:" ∧
      IsSelector message.textOrEmpty) ∧
    (IsSelector "at:put:" ∧ IsSelector "atput:" ∧
      operationName "at:put:" ≠ operationName "atput:") ∧
    IsSelector "," ∧ IsSelector "concat" ∧ operationName "," = operationName "concat" := by
  obtain ⟨hwritten, hread, hcollide⟩ := operations_collide_only_in_table
  have htwo : IsSelector "at:put:" :=
    @IsSelector.keyword _ ["at".toList, "put".toList] (by decide) (by decide) (by decide)
  have hone : IsSelector "atput:" :=
    @IsSelector.keyword _ ["atput".toList] (by decide) (by decide) (by decide)
  have hsign : IsSelector "," := @IsSelector.binary _ ',' (by decide) (by decide)
  have hname : IsSelector "concat" := .name (by decide)
  refine ⟨?_, ⟨htwo, hone, ?_⟩, hsign, hname, (hcollide _ _ hsign hname).mpr (by decide)⟩
  · obtain ⟨source, parsed, tree, run, message, hp, ht, hc, hk, hm, htext⟩ :=
      (hwritten "at:put:").mp htwo
    have hmessage := readMessage_of_parseProgram hp ht hc hk hm
    exact ⟨message, hmessage, htext, hread message hmessage⟩
  · exact mt (hcollide _ _ htwo hone).mp (by decide)

end MiniSmalltalk
