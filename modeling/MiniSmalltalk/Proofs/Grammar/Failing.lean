import MiniSmalltalk.Proofs.Grammar.Parsing
import MiniSmalltalk.Proofs.Token.Rendering

/-! # Where readers fail

A third judgement describes a reader by how it fails. It has taken tokens that can be continued,
and everything behind them is still in the stream. The fault names the first token that is left,
or the end, or the last token that was taken if an expression has to follow it. -/

namespace MiniSmalltalk.Grammar

open Token (Lexical)

variable {α β γ : Type}

/-! ### Beginnings of phrases -/

/-- Tokens that can be continued to tokens of a language. -/
def Viable (language : List Node → α → Prop) (tokens : List Node) : Prop :=
  ∃ (more : List Node) (value : α), (∀ token ∈ more, Lexical token) ∧
    language (tokens ++ more) value

namespace Viable

variable {language : List Node → α → Prop} {outer : List Node → β → Prop}
  {before tokens : List Node}

theorem complete {value : α} (h : language tokens value) : Viable language tokens :=
  ⟨[], value, by simp, by rwa [List.append_nil]⟩

/-- The beginning of a part is the beginning of the whole if the part can be continued. -/
theorem behind (h : Viable language tokens)
    (ho : ∀ words value, language words value → Viable outer (before ++ words)) :
    Viable outer (before ++ tokens) := by
  obtain ⟨more, value, hmore, hl⟩ := h
  obtain ⟨last, result, hlast, hr⟩ := ho _ _ hl
  refine ⟨more ++ last, result, List.forall_mem_append.mpr ⟨hmore, hlast⟩, ?_⟩
  simpa only [List.append_assoc] using hr

end Viable

/-! ### Places of faults -/

/-- A fault is at the first of what is left, at the end, or at the token that was taken last. -/
inductive Located (taken : List Node) (rest : List Reading) : SyntaxFault → Prop where
  | unexpectedToken {expected : String} {token : Node} {later : List Reading} :
      rest = .ok token :: later →
      Located taken rest ⟨.unexpectedToken expected token.describe, token.span⟩
  | unexpectedEnd {expected : String} {span : Span} : rest = [] →
      Located taken rest ⟨.unexpectedEnd expected, span⟩
  | missingExpression {front : List Node} {token : Node} : taken = front ++ [token] →
      token.kind ∈ [Kind.answer, .assignment, .leftParenthesis] →
      Located taken rest ⟨.missingExpression token.describe, token.span⟩

theorem Located.behind {taken : List Node} {rest : List Reading} {fault : SyntaxFault}
    (h : Located taken rest fault) (before : List Node) : Located (before ++ taken) rest fault := by
  cases h with
  | unexpectedToken hr => exact .unexpectedToken hr
  | unexpectedEnd hr => exact .unexpectedEnd hr
  | missingExpression ht hk => exact .missingExpression (by rw [ht, List.append_assoc]) hk

/-- If a reader fails behind some tokens, and not for a lexical fault, it has taken tokens with
which those before it are viable, leaves everything behind them, and the fault is located there. -/
def Faults (before : List Node) (viable : List Node → Prop) (view : List Reading)
    (reader : Reader α) : Prop :=
  ∀ (s behind : TokenStream) (fault : SyntaxFault), s.Plain → s.ahead = view →
    reader s = .error fault behind → (∃ inner, fault.cause = .lexical inner) ∨
      ∃ (front : List Node) (rest : List Reading), view = front.map .ok ++ rest ∧
        behind.ahead = rest ∧ viable (before ++ front) ∧ Located (before ++ front) rest fault

namespace Faults

variable {before : List Node} {viable : List Node → Prop} {view later : List Reading}
  {reader : Reader α}

/-- A reader that succeeds does not fail. -/
theorem of_returns {value : α} (h : Returns view reader value later) :
    Faults before viable view reader := by
  intro s behind fault hs hv hr
  obtain ⟨middle, hok, -, -⟩ := h s hs hv
  cases hok.symm.trans hr

theorem pure {value : α} : Faults before viable view (Pure.pure value) := of_returns .pure

theorem bind {next : α → Reader β} {post : α → List Reading → Prop}
    (h : Faults before viable view reader) (hr : Reads view reader reader post)
    (hn : ∀ value later, post value later → ∃ tokens : List Node,
      view = tokens.map .ok ++ later ∧ Faults (before ++ tokens) viable later (next value)) :
    Faults before viable view (reader >>= next) := by
  intro s behind fault hs hv hfault
  simp only [Bind.bind, EStateM.bind] at hfault
  cases hfirst : reader s with
  | error first middle =>
      rw [hfirst] at hfault
      cases hfault
      exact h s _ _ hs hv hfirst
  | ok value middle =>
      rw [hfirst] at hfault
      obtain ⟨hmiddle, hpost⟩ := hr.of_ok hs hv hfirst
      obtain ⟨tokens, htokens, hnext⟩ := hn value middle.ahead hpost
      rcases hnext middle behind fault hmiddle rfl hfault with hlexical | hplace
      · exact .inl hlexical
      · obtain ⟨front, rest, hfront, hrest, hviable, hlocated⟩ := hplace
        rw [List.append_assoc] at hviable hlocated
        refine .inr ⟨tokens ++ front, rest, ?_, hrest, hviable, hlocated⟩
        rw [htokens, hfront, List.map_append, List.append_assoc]

/-- Once a reader has succeeded, it does not matter what its value is made into. -/
theorem last {next : α → Reader β} (h : Faults before viable view reader)
    (hn : ∀ value, ∃ result, next value = Pure.pure result) :
    Faults before viable view (reader >>= next) := by
  intro s behind fault hs hv hfault
  simp only [Bind.bind, EStateM.bind] at hfault
  cases hfirst : reader s with
  | error first middle =>
      rw [hfirst] at hfault
      cases hfault
      exact h s _ _ hs hv hfirst
  | ok value middle =>
      obtain ⟨result, hnext⟩ := hn value
      simp only [hfirst, hnext] at hfault
      cases hfault

/-- A production is followed by one of two readers. -/
theorem bindMatched {reader : Reader (Option α)} {next : Option α → Reader β}
    {language : List Node → α → Prop} (h : Faults before viable view reader)
    (hr : Reads view reader reader (Matched language view))
    (hnone : Faults before viable view (next none))
    (hsome : ∀ tokens value later, view = tokens.map .ok ++ later → tokens ≠ [] →
      language tokens value → Faults (before ++ tokens) viable later (next (some value))) :
    Faults before viable view (reader >>= next) := by
  refine h.bind hr fun found later hm => ?_
  cases found with
  | none =>
      obtain rfl : later = view := hm
      exact ⟨[], rfl, by rwa [List.append_nil]⟩
  | some value =>
      obtain ⟨tokens, hv, hne, hl⟩ := hm
      exact ⟨tokens, hv, hsome tokens value later hv hne hl⟩

/-- A part that fails where it stands is a fault of the whole. -/
theorem within {language : List Node → β → Prop} {outer : List Node → γ → Prop}
    (h : Faults [] (Viable language) view reader)
    (ho : ∀ tokens value, language tokens value → Viable outer (before ++ tokens)) :
    Faults before (Viable outer) view reader := by
  intro s behind fault hs hv hr
  rcases h s behind fault hs hv hr with hlexical | hplace
  · exact .inl hlexical
  · obtain ⟨front, rest, hfront, hrest, hviable, hlocated⟩ := hplace
    exact .inr ⟨front, rest, hfront, hrest, hviable.behind ho, hlocated.behind before⟩

end Faults

/-! ### Tokens -/

section

variable {before : List Node} {viable : List Node → Prop}

theorem read_faults (view : List Reading) : Faults before viable view read := by
  intro s behind fault hs hv hr
  unfold read lift at hr
  have hspec := TokenStream.read_spec hs
  cases hread : TokenStream.read s with
  | ok found middle =>
      rw [hread] at hr
      cases hr
  | error first middle =>
      rw [hread] at hr hspec
      cases hr
      refine .inl ⟨first, ?_⟩
      unfold SyntaxFault.ofLexical
      split
      · rename_i kind heq
        exact absurd heq (hspec.2.2 kind)
      · rfl

theorem acceptIf_faults (test : Node → Bool) (view : List Reading) :
    Faults before viable view (acceptIf test) := by
  refine (read_faults view).bind (read_reads view) fun found later h => ?_
  cases found with
  | none =>
      obtain ⟨rfl, rfl⟩ := h
      exact ⟨[], rfl, .pure⟩
  | some token =>
      obtain ⟨rfl, hleaf⟩ := h
      refine ⟨[token], rfl, ?_⟩
      by_cases ht : test token = true
      · simp only [ht, if_true]
        exact .pure
      · simp only [ht, Bool.false_eq_true, if_false]
        exact .of_returns ((unread_returns hleaf later).bind .pure)

theorem accept_faults (kind : Kind) (view : List Reading) :
    Faults before viable view (accept kind) :=
  acceptIf_faults _ view

theorem acceptBinary_faults (text : String) (view : List Reading) :
    Faults before viable view (acceptBinary text) :=
  acceptIf_faults _ view

/-- What is expected is missing at the first token that is left, or at the end. -/
theorem expectIf_faults (h : viable before) (test : Node → Bool) (expected : String)
    (view : List Reading) : Faults before viable view (expectIf test expected) := by
  intro s behind fault hs hv hr
  simp only [expectIf, Bind.bind, EStateM.bind] at hr
  cases hread : read s with
  | error first middle =>
      rw [hread] at hr
      cases hr
      exact read_faults view s _ _ hs hv hread
  | ok found middle =>
      rw [hread] at hr
      obtain ⟨hmiddle, htoken⟩ := (read_reads view).of_ok hs hv hread
      cases found with
      | none =>
          obtain ⟨rfl, hend⟩ := htoken
          cases hr
          exact .inr ⟨[], [], rfl, hend, by rwa [List.append_nil], .unexpectedEnd rfl⟩
      | some token =>
          obtain ⟨rfl, hleaf⟩ := htoken
          by_cases ht : test token = true
          · simp only [ht, if_true] at hr
            cases hr
          · obtain ⟨left, hunread, -, hleft⟩ := unread_returns hleaf _ middle hmiddle rfl
            simp only [ht, Bool.false_eq_true, if_false, unexpected, Bind.bind, EStateM.bind,
              hunread] at hr
            cases hr
            refine .inr ⟨[], _, rfl, hleft, by rwa [List.append_nil], .unexpectedToken rfl⟩

theorem missingExpression_faults {token : Node}
    (hk : token.kind ∈ [Kind.answer, .assignment, .leftParenthesis])
    (h : viable (before ++ [token])) (view : List Reading) :
    Faults (before ++ [token]) viable view (missingExpression token : Reader α) := by
  intro s behind fault hs hv hr
  cases hr
  refine .inr ⟨[], view, rfl, hv, by rwa [List.append_nil], ?_⟩
  exact .missingExpression (List.append_nil _) hk

/-- A repetition fails where one of its items does, behind those that were found. -/
theorem many_faults {item : Reader (Option α)} {language : List Node → α → Prop}
    {stop : List Reading → List Reading → Prop} {bound : Nat} {view : List Reading}
    (hitem : ∀ view, (tokensIn view).length ≤ bound →
      Reads view item item (Found language stop view))
    (hstop : ∀ {view later}, stop view later → ∃ tokens : List Node, view = tokens.map .ok ++ later)
    (hf : ∀ pieces : List (Piece α), (∀ piece ∈ pieces, language piece.tokens piece.value) →
      ∀ view, (tokensIn view).length ≤ bound →
        Faults (before ++ Piece.tokensOf pieces) viable view item)
    (hb : (tokensIn view).length ≤ bound) (limit : Nat) :
    Faults before viable view (many item limit) := by
  induction limit generalizing before view with
  | zero => exact .pure
  | succ limit ih =>
      have hfirst := hf [] (by simp) view hb
      rw [Piece.tokensOf_nil, List.append_nil] at hfirst
      refine hfirst.bind (hitem view hb) fun found later h => ?_
      cases found with
      | none =>
          obtain ⟨tokens, hv⟩ := hstop h
          exact ⟨tokens, hv, .pure⟩
      | some first =>
          obtain ⟨tokens, rfl, -, hl⟩ := h
          simp only [tokensIn_append, List.length_append] at hb
          have hothers : Faults (before ++ tokens) viable later (many item limit) := by
            refine ih (fun pieces hp view hv => ?_) (by omega)
            rw [List.append_assoc]
            exact hf (⟨tokens, first⟩ :: pieces) (List.forall_mem_cons.mpr ⟨hl, hp⟩) view hv
          exact ⟨tokens, rfl, hothers.last fun _ => ⟨_, rfl⟩⟩

end

end MiniSmalltalk.Grammar
