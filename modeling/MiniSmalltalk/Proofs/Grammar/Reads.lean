import MiniSmalltalk.Grammar.Reader
import MiniSmalltalk.Proofs.Token.Ahead

/-! # Reasoning about readers

Two judgements describe a reader by what lies ahead before and after it. `Reads` holds of
two readers at once: they do the same, and whatever they come to is as the postcondition
says. It is used to show that bounds on repetition and depth have no effect; with the same
reader on both sides it is an ordinary triple. `Returns` says that a reader succeeds, with
which value, and what it leaves. -/

namespace MiniSmalltalk.Grammar

variable {α β : Type}

/-- What a reader may come to. A fault never comes from a node that was refused. -/
def Outcome (post : α → List Reading → Prop) : EStateM.Result SyntaxFault TokenStream α → Prop
  | .ok value behind => behind.Plain ∧ post value behind.ahead
  | .error fault behind => behind.Plain ∧ ∀ kind, fault.cause ≠ .compositePushback kind

/-- Wherever `view` lies ahead, both readers do the same and come to what `post` says. -/
def Reads (view : List Reading) (first second : Reader α) (post : α → List Reading → Prop) : Prop :=
  ∀ s : TokenStream, s.Plain → s.ahead = view → first s = second s ∧ Outcome post (first s)

namespace Reads

variable {view : List Reading} {first second : Reader α} {post : α → List Reading → Prop}

theorem pure {value : α} (h : post value view) :
    Reads view (Pure.pure value) (Pure.pure value) post := by
  rintro s hs rfl
  exact ⟨rfl, hs, h⟩

theorem bind {mid : α → List Reading → Prop} {next next' : α → Reader β}
    {post : β → List Reading → Prop} (h : Reads view first second mid)
    (hn : ∀ value later, mid value later → Reads later (next value) (next' value) post) :
    Reads view (first >>= next) (second >>= next') post := by
  intro s hs hv
  obtain ⟨heq, hout⟩ := h s hs hv
  simp only [Bind.bind, EStateM.bind, ← heq]
  cases hr : first s with
  | error fault behind =>
      rw [hr] at hout
      exact ⟨rfl, hout⟩
  | ok value behind =>
      rw [hr] at hout
      exact hn value behind.ahead hout.2 behind hout.1 rfl

theorem mono {post' : α → List Reading → Prop} (h : Reads view first second post)
    (hp : ∀ value later, post value later → post' value later) :
    Reads view first second post' := by
  intro s hs hv
  obtain ⟨heq, hout⟩ := h s hs hv
  refine ⟨heq, ?_⟩
  cases hr : first s with
  | error fault behind =>
      rw [hr] at hout
      exact hout
  | ok value behind =>
      rw [hr] at hout
      exact ⟨hout.1, hp value behind.ahead hout.2⟩

theorem and {post' : α → List Reading → Prop} (h : Reads view first second post)
    (h' : Reads view first second post') :
    Reads view first second fun value later => post value later ∧ post' value later := by
  intro s hs hv
  obtain ⟨heq, hout⟩ := h s hs hv
  obtain ⟨-, hout'⟩ := h' s hs hv
  refine ⟨heq, ?_⟩
  cases hr : first s with
  | error fault behind =>
      rw [hr] at hout
      exact hout
  | ok value behind =>
      rw [hr] at hout hout'
      exact ⟨hout.1, hout.2, hout'.2⟩

theorem fail {fault : SyntaxFault} (h : ∀ kind, fault.cause ≠ .compositePushback kind) :
    Reads view (throw fault) (throw fault) post := by
  intro s hs _
  exact ⟨rfl, hs, h⟩

end Reads

/-- Wherever `view` lies ahead, the reader succeeds with a value and leaves `later`. -/
def Returns (view : List Reading) (reader : Reader α) (value : α) (later : List Reading) : Prop :=
  ∀ s : TokenStream, s.Plain → s.ahead = view →
    ∃ behind, reader s = .ok value behind ∧ behind.Plain ∧ behind.ahead = later

namespace Returns

variable {view later : List Reading} {reader : Reader α} {value : α}

theorem pure : Returns view (Pure.pure value) value view := by
  intro s hs hv
  exact ⟨s, rfl, hs, hv⟩

theorem bind {last : List Reading} {next : α → Reader β} {result : β}
    (h : Returns view reader value later) (hn : Returns later (next value) result last) :
    Returns view (reader >>= next) result last := by
  intro s hs hv
  obtain ⟨middle, hr, hm, hma⟩ := h s hs hv
  obtain ⟨behind, hr', hb, hba⟩ := hn middle hm hma
  refine ⟨behind, ?_, hb, hba⟩
  simp only [Bind.bind, EStateM.bind, hr, hr']

theorem reads (h : Returns view reader value later) :
    Reads view reader reader fun found left => found = value ∧ left = later := by
  intro s hs hv
  obtain ⟨behind, hr, hb, hba⟩ := h s hs hv
  rw [hr]
  exact ⟨rfl, hb, rfl, hba⟩

theorem bind_reads {next next' : α → Reader β} {post : β → List Reading → Prop}
    (h : Returns view reader value later) (hn : Reads later (next value) (next' value) post) :
    Reads view (reader >>= next) (reader >>= next') post := by
  apply h.reads.bind
  intro found left hf
  rw [hf.1, hf.2]
  exact hn

end Returns

/-! ### Single tokens -/

def TokenRead (view : List Reading) : Option Node → List Reading → Prop
  | none, later => view = [] ∧ later = []
  | some token, later => view = .ok token :: later ∧ token.isLeaf = true

theorem read_reads (view : List Reading) : Reads view read read (TokenRead view) := by
  rintro s hs rfl
  have h := TokenStream.read_spec hs
  unfold read lift
  cases hr : TokenStream.read s with
  | error fault behind =>
      rw [hr] at h
      refine ⟨rfl, h.2.1, ?_⟩
      intro kind
      have hc := h.2.2
      unfold SyntaxFault.ofLexical
      split
      · rename_i kind' heq
        exact absurd heq (hc kind')
      · simp
  | ok found behind =>
      rw [hr] at h
      refine ⟨rfl, ?_⟩
      cases found with
      | none => exact ⟨h.2.2, h.1, h.2.1⟩
      | some token => exact ⟨h.2.2, h.1, h.2.1⟩

theorem unread_returns {token : Node} (ht : token.isLeaf = true) (view : List Reading) :
    Returns view (unread (some token)) () (.ok token :: view) := by
  rintro s hs rfl
  refine ⟨{ s with pending := token :: s.pending }, ?_, TokenStream.plain_push hs ht,
    TokenStream.ahead_push s token⟩
  simp [unread, lift, TokenStream.unread_some_of_isLeaf ht]

theorem unread_none_returns (view : List Reading) : Returns view (unread none) () view := by
  intro s hs hv
  exact ⟨s, rfl, hs, hv⟩

theorem read_returns_some (token : Node) (later : List Reading) :
    Returns (.ok token :: later) read (some token) later := by
  intro s hs hv
  have h := TokenStream.read_spec hs
  unfold read lift
  cases hr : TokenStream.read s with
  | error fault behind =>
      rw [hr] at h
      obtain ⟨later', hl⟩ := h.fault_first
      simp [hv] at hl
  | ok found behind =>
      rw [hr] at h
      cases found with
      | none => simp [h.1] at hv
      | some token' =>
          have he := h.1.symm.trans hv
          simp only [List.cons.injEq, Except.ok.injEq] at he
          exact ⟨behind, by rw [he.1], h.2.2, he.2⟩

theorem read_returns_none : Returns [] read none [] := by
  intro s hs hv
  have h := TokenStream.read_spec hs
  unfold read lift
  cases hr : TokenStream.read s with
  | error fault behind =>
      rw [hr] at h
      obtain ⟨later', hl⟩ := h.fault_first
      simp [hv] at hl
  | ok found behind =>
      rw [hr] at h
      cases found with
      | none => exact ⟨behind, rfl, h.2.2, h.2.1⟩
      | some token => simp [h.1] at hv

def Declines (test : Node → Bool) (view : List Reading) : Prop :=
  ∀ token later, view = .ok token :: later → test token = false

def Accepted (test : Node → Bool) (view : List Reading) : Option Node → List Reading → Prop
  | none, later => later = view ∧ Declines test view
  | some token, later => view = .ok token :: later ∧ token.isLeaf = true ∧ test token = true

theorem acceptIf_reads (test : Node → Bool) (view : List Reading) :
    Reads view (acceptIf test) (acceptIf test) (Accepted test view) := by
  unfold acceptIf
  apply (read_reads view).bind
  intro found later h
  cases found with
  | none =>
      obtain ⟨rfl, rfl⟩ := h
      exact .pure ⟨rfl, by simp [Declines]⟩
  | some token =>
      obtain ⟨rfl, hleaf⟩ := h
      by_cases ht : test token = true
      · simp only [ht, if_true]
        exact .pure ⟨rfl, hleaf, ht⟩
      · simp only [ht, Bool.false_eq_true, if_false]
        apply (unread_returns hleaf later).bind_reads
        refine .pure ⟨rfl, ?_⟩
        intro token' later' heq
        cases heq
        simpa using ht

theorem expectIf_reads (test : Node → Bool) (expected : String) (view : List Reading) :
    Reads view (expectIf test expected) (expectIf test expected) fun token later =>
      view = .ok token :: later ∧ token.isLeaf = true ∧ test token = true := by
  unfold expectIf
  apply (read_reads view).bind
  intro found later h
  cases found with
  | none =>
      intro s hs _
      exact ⟨rfl, hs, by simp⟩
  | some token =>
      obtain ⟨rfl, hleaf⟩ := h
      by_cases ht : test token = true
      · simp only [ht, if_true]
        exact .pure ⟨rfl, hleaf, ht⟩
      · simp only [ht, Bool.false_eq_true, if_false]
        exact (unread_returns hleaf later).bind_reads (.fail (by simp))

theorem missingExpression_reads (after : Node) {view : List Reading}
    {post : α → List Reading → Prop} :
    Reads view (missingExpression after) (missingExpression after) post :=
  .fail (by simp)

theorem acceptIf_returns_some {test : Node → Bool} {token : Node} (ht : test token = true)
    (later : List Reading) : Returns (.ok token :: later) (acceptIf test) (some token) later := by
  apply (read_returns_some token later).bind
  simp only [ht, if_true]
  exact .pure

/-- Nothing lies ahead, or a token that has no children and fails a test. -/
inductive Stops (test : Node → Bool) : List Reading → Prop where
  | atEnd : Stops test []
  | before {token : Node} {later : List Reading} (leaf : token.isLeaf = true)
      (fails : test token = false) : Stops test (.ok token :: later)

theorem acceptIf_returns_none {test : Node → Bool} {view : List Reading} (h : Stops test view) :
    Returns view (acceptIf test) none view := by
  cases h with
  | atEnd => exact read_returns_none.bind .pure
  | @before token later hleaf ht =>
      apply (read_returns_some token later).bind
      simp only [ht, Bool.false_eq_true, if_false]
      exact (unread_returns hleaf later).bind .pure

theorem expectIf_returns {test : Node → Bool} {token : Node} (ht : test token = true)
    (expected : String) (later : List Reading) :
    Returns (.ok token :: later) (expectIf test expected) token later := by
  apply (read_returns_some token later).bind
  simp only [ht, if_true]
  exact .pure

/-! ### Repetition -/

/-- Tokens, and what they are read as. -/
structure Piece (α : Type) where
  tokens : List Node
  value : α

namespace Piece

def tokensOf (pieces : List (Piece α)) : List Node := pieces.flatMap tokens

def values (pieces : List (Piece α)) : List α := pieces.map value

@[simp] theorem tokensOf_nil : tokensOf ([] : List (Piece α)) = [] := rfl

@[simp] theorem tokensOf_cons (piece : Piece α) (pieces : List (Piece α)) :
    tokensOf (piece :: pieces) = piece.tokens ++ tokensOf pieces := rfl

@[simp] theorem values_nil : values ([] : List (Piece α)) = [] := rfl

@[simp] theorem values_cons (piece : Piece α) (pieces : List (Piece α)) :
    values (piece :: pieces) = piece.value :: values pieces := rfl

end Piece

/-- What an item comes to: some tokens of a language are gone, or `stop` says what a missing
item has left. -/
def Found (language : List Node → α → Prop) (stop : List Reading → List Reading → Prop)
    (view : List Reading) : Option α → List Reading → Prop
  | none, later => stop view later
  | some value, later =>
      ∃ tokens : List Node, view = tokens.map .ok ++ later ∧ tokens ≠ [] ∧ language tokens value

/-- What a production comes to: some tokens of its language are gone, or nothing is. -/
abbrev Matched (language : List Node → α → Prop) (view : List Reading) :
    Option α → List Reading → Prop :=
  Found language (fun view later => later = view) view

/-- What a repetition comes to: pieces of a language are gone, and one missing item. -/
def Repeated (language : List Node → α → Prop) (stop : List Reading → List Reading → Prop)
    (view : List Reading) (values : List α) (later : List Reading) : Prop :=
  ∃ (pieces : List (Piece α)) (rest : List Reading),
    view = (Piece.tokensOf pieces).map .ok ++ rest ∧ stop rest later ∧
      values = Piece.values pieces ∧ ∀ piece ∈ pieces, language piece.tokens piece.value

/-- Every item takes a token, so a bound above the number of tokens is never reached. -/
theorem many_reads {item item' : Reader (Option α)} {language : List Node → α → Prop}
    {stop : List Reading → List Reading → Prop} {bound limit limit' : Nat} {view : List Reading}
    (hitem : ∀ view, (tokensIn view).length ≤ bound →
      Reads view item item' (Found language stop view))
    (hb : (tokensIn view).length ≤ bound) (hl : (tokensIn view).length < limit)
    (hl' : (tokensIn view).length < limit') :
    Reads view (many item limit) (many item' limit') (Repeated language stop view) := by
  induction limit generalizing limit' view with
  | zero => omega
  | succ limit ih =>
      obtain ⟨limit', rfl⟩ := Nat.exists_eq_add_of_lt (Nat.zero_lt_of_lt hl')
      simp only [Nat.zero_add, many]
      apply (hitem view hb).bind
      intro found later h
      cases found with
      | none => exact .pure ⟨[], view, rfl, h, rfl, by simp⟩
      | some first =>
          obtain ⟨tokens, rfl, hne, hfirst⟩ := h
          have hpos : 0 < tokens.length := List.length_pos_iff.mpr hne
          simp only [tokensIn_append, List.length_append] at hb hl hl'
          refine (ih (by omega) (by omega) (by omega)).bind ?_
          rintro others left ⟨pieces, rest, rfl, hstop, rfl, hpieces⟩
          refine .pure ⟨⟨tokens, first⟩ :: pieces, rest, by simp, hstop, rfl, ?_⟩
          intro piece hp
          rcases List.mem_cons.mp hp with rfl | hp
          · exact hfirst
          · exact hpieces piece hp

end MiniSmalltalk.Grammar
