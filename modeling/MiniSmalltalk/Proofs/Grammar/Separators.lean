import Mathlib.Data.List.Induction
import MiniSmalltalk.Proofs.Grammar.Parsing

/-! # Separators of runs

A semicolon that an expression has taken separates a run of messages from what stands in front of
it in the same expression: the receiver and all runs up to there. A run stands directly behind
every semicolon. Directly in front of it stands a run, too, unless the receiver has none: then the
first semicolon stands directly behind the receiver. -/

namespace MiniSmalltalk.Grammar

variable {front back : List Node} {semicolon : Node} {runs : List (Piece Node)}

/-! ### Separators -/

/-- In an expression that begins somewhere in front of it, a semicolon separates a receiver and
runs from one more run. The tokens on either side may reach beyond the expression. -/
inductive Separates (runs : List (Piece Node)) (semicolon : Node) :
    List Node → List Node → Prop where
  | mk {outer words more : List Node} {receiver : Piece Node} {first : Option (Piece Node)}
      {cascades : List (Piece Node)} {run : Node} :
      Derivation .primary receiver.tokens receiver.value →
      (∀ piece ∈ first, Derivation .messages piece.tokens piece.value) →
      (∀ piece ∈ cascades, Derivation .cascade piece.tokens piece.value) →
      runs = first.toList ++ cascades → Terminal .semicolon semicolon →
      Derivation .messages words run →
      Separates runs semicolon (outer ++ (receiver.tokens ++ Piece.tokensOf runs)) (words ++ more)

theorem Separates.length_lt (h : Separates runs semicolon front back) :
    runs.length < front.length := by
  have hpieces : ∀ pieces : List (Piece Node), (∀ piece ∈ pieces, piece.tokens ≠ []) →
      pieces.length ≤ (Piece.tokensOf pieces).length := by
    intro pieces hne
    induction pieces with
    | nil => exact Nat.le_refl _
    | cons piece pieces ih =>
        have hfirst := List.length_pos_iff.mpr (hne piece (by simp))
        have hothers := ih fun other hm => hne other (by simp [hm])
        simp only [List.length_cons, Piece.tokensOf_cons, List.length_append]
        omega
  cases h with
  | mk hr hf hc hruns _ _ =>
      have hreceiver := List.length_pos_iff.mpr hr.tokens_ne_nil
      have hle := hpieces runs fun piece hm => by
        rw [hruns, List.mem_append, Option.mem_toList] at hm
        exact hm.elim (fun hm => (hf piece hm).tokens_ne_nil) fun hm => (hc piece hm).tokens_ne_nil
      simp only [List.length_append]
      omega

theorem Separates.extend (h : Separates runs semicolon front back) (outer more : List Node) :
    Separates runs semicolon (outer ++ front) (back ++ more) := by
  cases h with
  | mk hr hf hc hruns hs hw =>
      rw [← List.append_assoc, List.append_assoc _ _ more]
      exact .mk hr hf hc hruns hs hw

/-- Every semicolon among tokens is a separator. -/
def Separated (tokens : List Node) : Prop :=
  ∀ front semicolon back, tokens = front ++ semicolon :: back → semicolon.kind = .semicolon →
    ∃ runs, Separates runs semicolon front back

theorem separated_of_forall {tokens : List Node} (h : ∀ token ∈ tokens, token.kind ≠ .semicolon) :
    Separated tokens := by
  rintro front semicolon back rfl hk
  exact absurd hk (h semicolon (by simp))

theorem Separated.append {tokens others : List Node} (h : Separated tokens)
    (h' : Separated others) : Separated (tokens ++ others) := by
  intro front semicolon back hsplit hk
  rcases List.append_eq_append_iff.mp hsplit with ⟨gap, rfl, hothers⟩ | ⟨gap, htokens, hgap⟩
  · obtain ⟨runs, hs⟩ := h' gap semicolon back hothers hk
    exact ⟨runs, by simpa using hs.extend tokens []⟩
  · cases gap with
    | nil =>
        obtain ⟨runs, hs⟩ := h' [] semicolon back hgap.symm hk
        exact ⟨runs, by simpa using hs.extend front []⟩
    | cons token gap =>
        obtain ⟨rfl, rfl⟩ := List.cons.inj hgap
        obtain ⟨runs, hs⟩ := h front semicolon gap htokens hk
        exact ⟨runs, by simpa using hs.extend [] others⟩

/-- A semicolon between tokens is the one that separates them, or it is on one side of it. -/
theorem Separated.join {tokens words : List Node} (h : Separated tokens)
    (hs : Separates runs semicolon tokens words) (h' : Separated words) :
    Separated (tokens ++ semicolon :: words) := by
  intro front other back hsplit hk
  rcases List.append_eq_append_iff.mp hsplit with ⟨gap, rfl, hgap⟩ | ⟨gap, htokens, hgap⟩
  · cases gap with
    | nil =>
        obtain ⟨rfl, rfl⟩ := List.cons.inj hgap
        exact ⟨runs, by simpa using hs⟩
    | cons token gap =>
        obtain ⟨rfl, hwords⟩ := List.cons.inj hgap
        obtain ⟨others, hother⟩ := h' gap other back hwords hk
        exact ⟨others, by simpa using hother.extend (tokens ++ [semicolon]) []⟩
  · cases gap with
    | nil =>
        obtain ⟨rfl, rfl⟩ := List.cons.inj hgap
        obtain rfl : tokens = front := by simpa using htokens
        exact ⟨runs, hs⟩
    | cons token gap =>
        obtain ⟨rfl, rfl⟩ := List.cons.inj hgap
        obtain ⟨others, hother⟩ := h front other gap htokens hk
        exact ⟨others, hother.extend [] (semicolon :: words)⟩

theorem Separated.tokensOf {pieces : List (Piece Node)}
    (h : ∀ piece ∈ pieces, Separated piece.tokens) : Separated (Piece.tokensOf pieces) := by
  induction pieces with
  | nil => exact separated_of_forall (by simp)
  | cons piece pieces ih =>
      exact (h piece (by simp)).append (ih fun other hm => h other (by simp [hm]))

/-! ### Separators of a derivation -/

theorem Terminal.separated {kind : Kind} {token : Node} (h : Terminal kind token)
    (hk : kind ≠ .semicolon) : Separated [token] := by
  refine separated_of_forall fun other hm => ?_
  obtain rfl := List.mem_singleton.mp hm
  rwa [h.kind_eq]

theorem Optionally.separated {kind : Kind} {tokens : List Node} (h : Optionally kind tokens)
    (hk : kind ≠ .semicolon) : Separated tokens := by
  cases h with
  | absent => exact separated_of_forall (by simp)
  | present ht => exact ht.separated hk

theorem separated_of_terminals {kind : Kind} {tokens : List Node}
    (h : ∀ token ∈ tokens, Terminal kind token) (hk : kind ≠ .semicolon) : Separated tokens :=
  separated_of_forall fun token hm => by rwa [(h token hm).kind_eq]

theorem Parameters.separated {tokens arguments : List Node} (h : Parameters tokens arguments) :
    Separated tokens := by
  cases h with
  | absent => exact separated_of_forall (by simp)
  | present _ hp hb =>
      refine (Separated.tokensOf fun piece hm => ?_).append (hb.toTerminal.separated (by decide))
      have hparameter := hp piece hm
      generalize piece.tokens = tokens at hparameter
      cases hparameter with
      | mk hc hn =>
          exact (hc.separated (by decide)).append (hn.separated (by decide))

theorem Temporaries.separated {tokens names : List Node} (h : Temporaries tokens names) :
    Separated tokens := by
  cases h with
  | absent => exact separated_of_forall (by simp)
  | none ho hc =>
      exact (ho.toTerminal.separated (by decide)).append (hc.toTerminal.separated (by decide))
  | present _ ho hn hc =>
      exact (ho.toTerminal.separated (by decide)).append
        ((separated_of_terminals hn (by decide)).append (hc.toTerminal.separated (by decide)))

/-- The first runs of an expression are in front of each semicolon that begins a further one. -/
theorem separated_of_cascades {tokens : List Node} {receiver : Node}
    {first : Option (Piece Node)} {cascades : List (Piece Node)}
    (hr : Derivation .primary tokens receiver)
    (hf : ∀ piece ∈ first, Derivation .messages piece.tokens piece.value)
    (hc : ∀ piece ∈ cascades, Derivation .cascade piece.tokens piece.value)
    (hreceiver : Separated tokens) (hfirst : ∀ piece ∈ first, Separated piece.tokens)
    (hcascades : ∀ piece ∈ cascades, Separated piece.tokens.tail) :
    Separated (tokens ++ Piece.tokensOf (first.toList ++ cascades)) := by
  induction cascades using List.reverseRecOn with
  | nil =>
      have hrun : ∀ piece ∈ first.toList ++ [], Separated piece.tokens := by simpa using hfirst
      exact hreceiver.append (.tokensOf hrun)
  | append_singleton cascades piece ih =>
      have hfront := ih (fun other hm => hc other (by simp [hm]))
        fun other hm => hcascades other (by simp [hm])
      have hlast := hc piece (by simp)
      have htail := hcascades piece (by simp)
      obtain ⟨words, value⟩ := piece
      cases hlast with
      | @cascade semicolon _ words hs hrun =>
          have hseparates := @Separates.mk _ semicolon [] words [] ⟨tokens, receiver⟩ first
            cascades _ hr hf (fun other hm => hc other (by simp [hm])) rfl hs hrun
          rw [List.append_nil] at hseparates
          simpa [Piece.tokensOf] using hfront.join hseparates htail

/-- The tokens of a phrase, without a semicolon that it begins with. -/
def Phrase.inner : Phrase → List Node → List Node
  | .cascade, tokens => tokens.tail
  | _, tokens => tokens

/-- Every semicolon of an expression separates runs, whether it stands in the expression itself or
in one inside it. -/
theorem Derivation.separated {phrase : Phrase} {tokens : List Node} {tree : Node}
    (h : Derivation phrase tokens tree) : Separated (phrase.inner tokens) := by
  induction h with
  | answer hc _ hl ih =>
      exact (hc.separated (by decide)).append (ih.append (hl.separated (by decide)))
  | statements _ _ hl ihf iho =>
      exact ihf.append ((Separated.tokensOf iho).append (hl.separated (by decide)))
  | nextStatement hd _ ih => exact (hd.separated (by decide)).append ih
  | assignment hn hs _ ih =>
      exact (hn.separated (by decide)).append ((hs.separated (by decide)).append ih)
  | @send _ _ run cascades hr hf hc ihr ihf ihc =>
      have hall := separated_of_cascades hr hf hc ihr ihf ihc
      simpa [Piece.tokensOf, Phrase.inner] using hall
  | cascade _ _ ih => exact ih
  | messages hu _ _ _ ihb ihs =>
      exact (separated_of_terminals hu (by decide)).append
        ((Separated.tokensOf ihb).append (.tokensOf ihs))
  | binaryMessage hs _ ih => exact (hs.separated (by decide)).append ih
  | keywordSegment hs _ ih => exact (hs.separated (by decide)).append ih
  | name ht => exact ht.separated (by decide)
  | integer ht => exact ht.separated (by decide)
  | negative hm ht =>
      exact (hm.toTerminal.separated (by decide)).append (ht.separated (by decide))
  | string ht => exact ht.separated (by decide)
  | @block _ _ _ _ _ _ body ho hpar htmp _ hc ih =>
      have hbody : ∀ piece ∈ body.toList, Separated piece.tokens :=
        fun piece hm => ih piece (Option.mem_toList.mp hm)
      exact (ho.separated (by decide)).append (hpar.separated.append (htmp.separated.append
        ((Separated.tokensOf hbody).append (hc.separated (by decide)))))
  | parenthesised ho _ hc ih =>
      exact (ho.separated (by decide)).append (ih.append (hc.separated (by decide)))

/-! ### What is left behind an expression -/

def CascadeAhead (view : List Reading) : Prop :=
  ∃ words run later, view = words.map .ok ++ later ∧ Derivation .cascade words run

variable {limit depth : Nat} {view : List Reading}

theorem cascade_reads_ended (he : Enough limit depth view) :
    Reads view (cascade limit (expressionUpTo depth)) (cascade limit (expressionUpTo depth))
      (Found (Derivation .cascade)
        (fun view later => later = view ∧ ¬ CascadeAhead view) view) := by
  have hreads := cascade_reads he.inner (Nat.le_refl _) he.repetitions he.repetitions
  by_cases h : CascadeAhead view
  · obtain ⟨words, run, rest, rfl, hd⟩ := h
    have hreaches : Reaches _ (cascade limit (expressionUpTo depth)) rest := hd.completed.reaches he
    apply (hreads.and hreaches).mono
    rintro found later ⟨hm, hl⟩
    cases found with
    | some value => exact hm
    | none =>
        -- What is missed would still have to lie ahead.
        obtain rfl : later = _ := hm
        have hle := hl.length_le
        have hpos := List.length_pos_iff.mpr hd.tokens_ne_nil
        simp only [List.length_append, List.length_map] at hle
        omega
  · apply hreads.mono
    intro found later hm
    cases found with
    | some value => exact hm
    | none => exact ⟨hm, h⟩

theorem basicExpression_reads_ended (he : Enough limit depth view) :
    Reads view (basicExpression limit (expressionUpTo depth))
      (basicExpression limit (expressionUpTo depth))
      fun found later => found.isSome = true → ¬ CascadeAhead later := by
  unfold basicExpression
  apply (primary_reads he.inner (Nat.le_refl _) he.repetitions he.repetitions).bind
  intro found later hm
  have hlater := he.suffix hm.suffix
  cases found with
  | none => exact .pure (by simp)
  | some receiver =>
      apply (messages_reads hlater.inner (Nat.le_refl _) hlater.repetitions
        hlater.repetitions).bind
      intro run left hm
      have hleft := hlater.suffix hm.suffix
      have hdepth := hleft.levels
      have hlimit := hleft.repetitions
      refine (many_reads (fun view hv => cascade_reads_ended ⟨by omega, by omega⟩) (Nat.le_refl _)
        hlimit hlimit).bind ?_
      rintro cascades last ⟨pieces, rest, -, ⟨rfl, hnone⟩, -, -⟩
      exact .pure fun _ => hnone

/-- An expression that is read has a run of messages directly behind each of its semicolons, and
in front of each its receiver and the runs in between. A semicolon that is left is not followed by
a run, and where there is no expression nothing is taken. -/
theorem semicolons_separate_runs {s : TokenStream} (h : Reachable s) {found : Option Node}
    {behind : TokenStream} (hr : Rule.basicExpression.reader s = .ok found behind) :
    (found = none → behind.ahead = s.ahead) ∧
    ∀ tree, found = some tree →
      ∃ tokens : List Node, s.ahead = tokens.map .ok ++ behind.ahead ∧
        Derivation .expression tokens tree ∧
        (∀ front semicolon back, tokens = front ++ semicolon :: back →
          semicolon.kind = .semicolon → ∃ runs, Separates runs semicolon front back) ∧
        ∀ semicolon words run later, behind.ahead = .ok semicolon :: (words.map .ok ++ later) →
          Terminal .semicolon semicolon → ¬ Derivation .messages words run := by
  have he : Enough (s.size + 1) (s.size + 1) s.ahead :=
    ⟨(enough_size s).repetitions, Nat.le_succ_of_le (enough_size s).levels⟩
  have hreads := (basicExpression_reads he.inner (Nat.le_refl _) he.repetitions
    he.repetitions).and (basicExpression_reads_ended he)
  obtain ⟨-, hmatched, hended⟩ := hreads.of_ok h.plain rfl hr
  refine ⟨?_, ?_⟩
  · rintro rfl
    exact hmatched
  · rintro tree rfl
    obtain ⟨tokens, hv, -, hd⟩ := hmatched
    refine ⟨tokens, hv, hd, hd.separated, ?_⟩
    intro semicolon words run later hv' hs hrun
    exact hended rfl ⟨semicolon :: words, run, later, hv', .cascade hs hrun⟩

/-- The number of readings that lie ahead behind an expression that is read. -/
def leftBehind : EStateM.Result SyntaxFault TokenStream (Option Node) → Option Nat
  | .ok (some _) behind => some behind.ahead.length
  | _ => none

theorem exists_of_leftBehind {result : EStateM.Result SyntaxFault TokenStream (Option Node)}
    {count : Nat} (h : leftBehind result = some count) :
    ∃ tree behind, result = .ok (some tree) behind ∧ behind.ahead.length = count := by
  unfold leftBehind at h
  split at h
  · rename_i tree behind
    exact ⟨tree, behind, rfl, Option.some.inj h⟩
  · cases h

theorem semicolons_separate_runs_dangling :
    Reachable (.ofString "1 + 2 ; negated ; .") ∧
      ∃ tree behind, ∃ tokens : List Node,
        Rule.basicExpression.reader (.ofString "1 + 2 ; negated ; .") = .ok (some tree) behind ∧
        (TokenStream.ofString "1 + 2 ; negated ; .").ahead = tokens.map .ok ++ behind.ahead ∧
        (tokens.length = 5 ∧ behind.ahead.length = 2) ∧
        ∀ front semicolon back, tokens = front ++ semicolon :: back →
          semicolon.kind = .semicolon → ∃ runs, Separates runs semicolon front back := by
  have hreach : Reachable (.ofString "1 + 2 ; negated ; .") := .start _
  have hahead : (TokenStream.ofString "1 + 2 ; negated ; .").ahead.length = 7 := by decide +kernel
  have hleft : leftBehind (Rule.basicExpression.reader (.ofString "1 + 2 ; negated ; .")) =
      some 2 := by decide +kernel
  obtain ⟨tree, behind, hr, hbehind⟩ := exists_of_leftBehind hleft
  obtain ⟨tokens, hv, -, hseparated, -⟩ := (semicolons_separate_runs hreach hr).2 tree rfl
  refine ⟨hreach, tree, behind, tokens, hr, hv, ⟨?_, hbehind⟩, hseparated⟩
  simp only [hv, List.length_append, List.length_map, hbehind] at hahead
  omega

/-- A semicolon behind a receiver without messages is taken, although no run is in front of it. -/
theorem semicolon_behind_receiver_is_taken :
    ∃ tree behind name semicolon message,
      Rule.basicExpression.reader (.ofString "x ; foo") = .ok (some tree) behind ∧
      (TokenStream.ofString "x ; foo").ahead = [name, semicolon, message].map .ok ∧
      behind.ahead = [] ∧ semicolon.kind = .semicolon ∧
      ¬ ∃ runs, runs ≠ [] ∧ Separates runs semicolon [name] [message] := by
  have hleft : leftBehind (Rule.basicExpression.reader (.ofString "x ; foo")) = some 0 := by
    decide +kernel
  have hkinds : (tokenize "x ; foo").toOption.map (fun tokens => tokens.map Node.kind) =
      some [.identifier, .semicolon, .identifier] := by decide +kernel
  obtain ⟨tree, behind, hr, hbehind⟩ := exists_of_leftBehind hleft
  cases ht : tokenize "x ; foo" with
  | error fault => simp [ht, Except.toOption] at hkinds
  | ok tokens =>
      simp only [ht, Except.toOption, Option.map_some, Option.some.injEq,
        List.map_eq_cons_iff, List.map_eq_nil_iff] at hkinds
      obtain ⟨name, _, rfl, -, semicolon, _, rfl, hk, message, _, rfl, -, rfl⟩ := hkinds
      refine ⟨tree, behind, name, semicolon, message, hr, tokenize_eq_ok_iff.mp ht,
        List.length_eq_zero_iff.mp hbehind, hk, ?_⟩
      rintro ⟨runs, hne, hs⟩
      have hlt := hs.length_lt
      have hpos := List.length_pos_iff.mpr hne
      simp only [List.length_singleton] at hlt
      omega

end MiniSmalltalk.Grammar
