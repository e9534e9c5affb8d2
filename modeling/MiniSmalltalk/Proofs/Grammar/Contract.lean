import MiniSmalltalk.Grammar.Program
import MiniSmalltalk.Proofs.Grammar.Soundness.Expressions

/-! # The contract of the productions

A production that does not match leaves what lies ahead as it was, one that matches takes
some of it from the front, and no node with children is ever given back. This holds of every
stream that reading, giving back tokens and earlier productions can leave. -/

namespace MiniSmalltalk.Grammar

/-! ### What a call keeps -/

/-- What a call may come to. A match takes something unless `strict` is false. -/
def Kept (strict : Prop) (s : TokenStream) :
    EStateM.Result SyntaxFault TokenStream (Option Node) → Prop
  | .ok none behind => behind.ahead = s.ahead
  | .ok (some _) behind =>
      behind.ahead <:+ s.ahead ∧ (strict → behind.ahead.length < s.ahead.length)
  | .error fault _ => ∀ kind, fault.cause ≠ .compositePushback kind

/-- A call fails for other reasons than a node that was refused. -/
def Unrefused {α : Type} : EStateM.Result SyntaxFault TokenStream α → Prop
  | .ok _ _ => True
  | .error fault _ => ∀ kind, fault.cause ≠ .compositePushback kind

def Advanced (strict : Prop) (view : List Reading) : Option Node → List Reading → Prop
  | none, later => later = view
  | some _, later => later <:+ view ∧ (strict → later.length < view.length)

variable {strict : Prop} {view : List Reading} {bound limit limit' : Nat}
  {inner inner' first second : Production}

theorem Reads.kept (h : Reads view first second (Advanced strict view)) {s : TokenStream}
    (hs : s.Plain) (hv : s.ahead = view) : Kept strict s (first s) := by
  subst hv
  have hout := (h s hs rfl).2
  cases hr : first s with
  | error fault behind =>
      rw [hr] at hout
      exact hout.2
  | ok found behind =>
      rw [hr] at hout
      cases found with
      | none => exact hout.2
      | some node => exact hout.2

theorem Reads.unrefused {α : Type} {reader reader' : Reader α} {post : α → List Reading → Prop}
    (h : Reads view reader reader' post) {s : TokenStream} (hs : s.Plain) (hv : s.ahead = view) :
    Unrefused (reader s) := by
  have hout := (h s hs hv).2
  cases hr : reader s with
  | error fault behind =>
      rw [hr] at hout
      exact hout.2
  | ok found behind => trivial

theorem Reads.advanced {language : List Node → Node → Prop}
    (h : Reads view first second (Matched language view)) :
    Reads view first second (Advanced strict view) := by
  apply h.mono
  intro found later hm
  cases found with
  | none => exact hm
  | some node =>
      obtain ⟨tokens, rfl, hne, -⟩ := hm
      have hpos := List.length_pos_iff.mpr hne
      refine ⟨List.suffix_append _ _, fun _ => ?_⟩
      simp
      omega

/-! ### Productions -/

theorem read_advanced (view : List Reading) : Reads view read read (Advanced strict view) := by
  apply (read_reads view).mono
  intro found later h
  cases found with
  | none =>
      obtain ⟨rfl, rfl⟩ := h
      rfl
  | some token =>
      obtain ⟨rfl, -⟩ := h
      exact ⟨List.suffix_cons _ _, fun _ => by simp⟩

theorem blockBody_advanced (hi : Inner (bound + 1) inner inner')
    (hb : (tokensIn view).length ≤ bound) (hl : bound < limit) (hl' : bound < limit') :
    Reads view (blockBody limit inner) (blockBody limit' inner')
      (Advanced (Rule.blockBody ≠ .blockBody) view) := by
  apply (blockBody_reads hi hb hl hl').mono
  intro found later h
  cases found with
  | none => exact h.elim
  | some body =>
      obtain ⟨tokens, parts, rfl, -, -⟩ := h
      exact ⟨List.suffix_append _ _, fun hne => absurd rfl hne⟩

/-- Every production advances, and does the same with all bounds that suffice. -/
theorem Rule.readerWith_reads (rule : Rule) (hi : Inner (bound + 1) inner inner')
    (hb : (tokensIn view).length ≤ bound) (hl : bound < limit) (hl' : bound < limit') :
    Reads view (rule.readerWith limit inner) (rule.readerWith limit' inner')
      (Advanced (rule ≠ .blockBody) view) := by
  have hi' : Inner bound inner inner' := hi.mono (Nat.le_succ bound)
  cases rule with
  | token => exact read_advanced view
  | program => exact (statements_reads hi hb hl hl').advanced
  | temporaries => exact (temporaries_reads (by omega) (by omega)).advanced
  | blockConstructor => exact (blockConstructor_reads hi' hb hl hl').advanced
  | blockBody => exact blockBody_advanced hi hb hl hl'
  | blockArgument => exact (blockArgument_reads view).advanced
  | statements => exact (statements_reads hi hb hl hl').advanced
  | returnStatement => exact (returnStatement_reads hi' hb).advanced
  | expression => exact (hi view (Nat.lt_succ_of_le hb)).advanced
  | assignment => exact (assignment_reads hi' hb).advanced
  | basicExpression => exact (basicExpression_reads hi' hb hl hl').advanced
  | identifier => exact (accept_reads .identifier view).advanced
  | primary => exact (primary_reads hi' hb hl hl').advanced
  | messages => exact (messages_reads hi' hb hl hl').advanced
  | unaryMessage => exact (accept_reads .identifier view).advanced
  | binaryMessage => exact (binaryMessage_reads hi' hb hl hl').advanced
  | binarySelector => exact (accept_reads .binary view).advanced
  | binaryArgument => exact (primary_reads hi' hb hl hl').advanced
  | keywordMessage => exact (keywordMessage_reads hi' hb hl hl').advanced
  | keyword => exact (accept_reads .keyword view).advanced
  | keywordArgument => exact (primary_reads hi' hb hl hl').advanced
  | literal => exact (literal_reads view).advanced
  | numberLiteral => exact (numberLiteral_reads view).advanced
  | integer => exact (accept_reads .integer view).advanced
  | stringLiteral => exact (accept_reads .string view).advanced

theorem inner_expressionOver (bottom bottom' : Production) {size depth depth' : Nat}
    (hd : size < depth) (hd' : size < depth') :
    Inner (size + 1) (expressionOver bottom depth) (expressionOver bottom' depth') := by
  intro view hv
  exact expressionOver_reads bottom bottom' (by omega) (by omega)

theorem Rule.readerWith_eq_reader (rule : Rule) {s : TokenStream} (hs : s.Plain) {limit depth : Nat}
    (bottom : Production) (hl : s.size < limit) (hd : s.size < depth) :
    rule.readerWith limit (expressionOver bottom depth) s = rule.reader s := by
  have hi := inner_expressionOver bottom (return none) hd (Nat.lt_succ_self s.size)
  rw [← expressionUpTo_eq] at hi
  exact (rule.readerWith_reads hi s.length_tokensIn_ahead_le hl (Nat.lt_succ_self _) s hs rfl).1

theorem Rule.reader_reads (rule : Rule) {s : TokenStream} :
    Reads s.ahead (rule.readerWith (s.size + 1) (expressionUpTo (s.size + 1)))
      (rule.readerWith (s.size + 1) (expressionUpTo (s.size + 1)))
      (Advanced (rule ≠ .blockBody) s.ahead) := by
  have hi := inner_expressionOver (return none) (return none) (Nat.lt_succ_self s.size)
    (Nat.lt_succ_self s.size)
  rw [← expressionUpTo_eq] at hi
  have hlt := Nat.lt_succ_self s.size
  exact rule.readerWith_reads hi s.length_tokensIn_ahead_le hlt hlt

theorem accept_advanced (kind : Kind) (view : List Reading) :
    Reads view (accept kind) (accept kind) (Advanced strict view) :=
  (accept_reads kind view).advanced

theorem acceptBinary_advanced (text : String) (view : List Reading) :
    Reads view (acceptBinary text) (acceptBinary text) (Advanced strict view) :=
  (acceptBinary_reads text view).advanced

/-! ### Streams that calls can leave -/

/-- The stream that a call leaves, whether it fails or not. -/
def left {α : Type} : EStateM.Result SyntaxFault TokenStream α → TokenStream
  | .ok _ behind => behind
  | .error _ behind => behind

/-- The calls that can be made on a stream. -/
inductive Operation where
  | read
  | unread (token : Option Node)
  | production (rule : Rule)
  | accept (kind : Kind)
  | acceptBinary (text : String)
  | expect (kind : Kind) (expected : String)
  | expectBinary (text expected : String)

def Operation.run (s : TokenStream) : Operation → TokenStream
  | read => left (Grammar.read s)
  | unread token => left (Grammar.unread token s)
  | production rule => left (rule.reader s)
  | accept kind => left (Grammar.accept kind s)
  | acceptBinary text => left (Grammar.acceptBinary text s)
  | expect kind expected => left (Grammar.expect kind expected s)
  | expectBinary text expected => left (Grammar.expectBinary text expected s)

/-- Only nodes without children are given back from outside. -/
def Operation.Allowed : Operation → Prop
  | unread token => ∀ node ∈ token, node.isLeaf = true
  | _ => True

/-- The streams that a sequence of calls can leave. -/
inductive Reachable : TokenStream → Prop where
  | start (source : String) : Reachable (.ofString source)
  | step {s : TokenStream} {operation : Operation} : Reachable s → operation.Allowed →
      Reachable (operation.run s)

theorem Reads.plain_left {α : Type} {reader reader' : Reader α} {post : α → List Reading → Prop}
    (h : Reads view reader reader' post) {s : TokenStream} (hs : s.Plain) (hv : s.ahead = view) :
    (left (reader s)).Plain := by
  have hout := (h s hs hv).2
  cases hr : reader s with
  | error fault behind =>
      rw [hr] at hout
      exact hout.1
  | ok found behind =>
      rw [hr] at hout
      exact hout.1

theorem unread_plain {s : TokenStream} (hs : s.Plain) {token : Option Node}
    (ht : ∀ node ∈ token, node.isLeaf = true) : (left (unread token s)).Plain := by
  cases token with
  | none => exact (unread_none_returns s.ahead).reads.plain_left hs rfl
  | some node => exact (unread_returns (ht node rfl) s.ahead).reads.plain_left hs rfl

theorem Operation.run_plain {s : TokenStream} (hs : s.Plain) {operation : Operation}
    (ha : operation.Allowed) : (operation.run s).Plain := by
  cases operation with
  | read => exact (read_reads s.ahead).plain_left hs rfl
  | unread token => exact unread_plain hs ha
  | production rule => exact rule.reader_reads.plain_left hs rfl
  | accept kind => exact (accept_reads kind s.ahead).plain_left hs rfl
  | acceptBinary text => exact (acceptBinary_reads text s.ahead).plain_left hs rfl
  | expect kind expected => exact (expect_reads kind expected s.ahead).plain_left hs rfl
  | expectBinary text expected => exact (expectBinary_reads text expected s.ahead).plain_left hs rfl

theorem Reachable.plain {s : TokenStream} (h : Reachable s) : s.Plain := by
  induction h with
  | start source => exact TokenStream.plain_ofString source
  | step _ ha ih => exact Operation.run_plain ih ha

/-- Every call on every stream that calls can leave keeps the contract. The bounds of a
production never decide what it does: all that exceed the size of the stream, and whatever
stands in for expressions below the deepest level, give the same. -/
theorem reachable_contract {s : TokenStream} (h : Reachable s) :
    (∀ token ∈ s.pending, token.isLeaf = true) ∧
    (∀ rule : Rule,
      (∀ (limit depth : Nat) (bottom : Production), s.size < limit → s.size < depth →
        rule.readerWith limit (expressionOver bottom depth) s = rule.reader s) ∧
      Kept (rule ≠ .blockBody) s (rule.reader s)) ∧
    (∀ kind, Kept True s (accept kind s)) ∧
    (∀ text, Kept True s (acceptBinary text s)) ∧
    (∀ kind expected, Unrefused (expect kind expected s)) ∧
    (∀ text expected, Unrefused (expectBinary text expected s)) := by
  have hs := h.plain
  refine ⟨hs, ?_, ?_, ?_, ?_, ?_⟩
  · intro rule
    refine ⟨?_, rule.reader_reads.kept hs rfl⟩
    intro limit depth bottom hl hd
    exact rule.readerWith_eq_reader hs bottom hl hd
  · intro kind
    exact (accept_advanced kind s.ahead).kept hs rfl
  · intro text
    exact (acceptBinary_advanced text s.ahead).kept hs rfl
  · intro kind expected
    exact (expect_reads kind expected s.ahead).unrefused hs rfl
  · intro text expected
    exact (expectBinary_reads text expected s.ahead).unrefused hs rfl

theorem reachable_contract_behind_token :
    Reachable (Operation.read.run (.ofString "x ; .")) ∧
      ∀ rule : Rule, Kept (rule ≠ .blockBody) (Operation.read.run (.ofString "x ; ."))
        (rule.reader (Operation.read.run (.ofString "x ; ."))) := by
  have hreach : Reachable (Operation.read.run (.ofString "x ; .")) := .step (.start "x ; .") trivial
  obtain ⟨-, hrules, -⟩ := reachable_contract hreach
  exact ⟨hreach, fun rule => (hrules rule).2⟩

end MiniSmalltalk.Grammar
