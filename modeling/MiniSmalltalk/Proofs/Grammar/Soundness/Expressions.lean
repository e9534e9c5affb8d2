import MiniSmalltalk.Proofs.Grammar.Soundness.Blocks

/-! # Soundness of messages and expressions

The circle is closed here: the readers of expressions agree with each other for all depths
that exceed the number of tokens ahead. -/

namespace MiniSmalltalk.Grammar

variable {α β : Type} {bound limit limit' : Nat} {inner inner' : Production}
  {view : List Reading}

/-! ### Messages -/

/-- A token and what has to follow it, with a value made from both. -/
def Following (kind : Kind) (language : List Node → α → Prop) (join : Node → α → β)
    (tokens : List Node) (value : β) : Prop :=
  ∃ token words part, tokens = token :: words ∧ Terminal kind token ∧ language words part ∧
    value = join token part

theorem followedBy_reads {kind : Kind} {rest rest' : Reader (Option α)}
    {language : List Node → α → Prop} {join : Node → α → β}
    (hr : ∀ later, (tokensIn later).length < bound →
      Reads later rest rest' (Matched language later))
    (hb : (tokensIn view).length ≤ bound) :
    Reads view (followedBy kind rest join) (followedBy kind rest' join)
      (Matched (Following kind language join) view) := by
  unfold followedBy
  apply (accept_reads kind view).bind
  intro found later h
  cases found with
  | none => exact .pure h
  | some token =>
      obtain ⟨tokens, rfl, -, rfl, ht⟩ := h
      apply (hr later hb).bind
      intro found left h
      cases found with
      | none =>
          obtain rfl : left = later := h
          exact (unread_returns ht.leaf left).bind_reads (.pure rfl)
      | some part =>
          obtain ⟨words, rfl, -, hp⟩ := h
          exact .pure ⟨token :: words, rfl, by simp, token, words, part, rfl, ht, hp, rfl⟩

theorem Matched.imp {language language' : List Node → α → Prop} {found : Option α}
    {later : List Reading} (h : Matched language view found later)
    (hl : ∀ tokens value, language tokens value → language' tokens value) :
    Matched language' view found later := by
  cases found with
  | none => exact h
  | some value =>
      obtain ⟨tokens, hv, hne, ht⟩ := h
      exact ⟨tokens, hv, hne, hl tokens value ht⟩

theorem binaryMessage_reads (hi : Inner bound inner inner')
    (hb : (tokensIn view).length ≤ bound) (hl : bound < limit) (hl' : bound < limit') :
    Reads view (binaryMessage limit inner) (binaryMessage limit' inner')
      (Matched (Derivation .binaryMessage) view) := by
  refine (followedBy_reads
    (fun _ hv => primary_reads hi (Nat.le_of_lt hv) hl hl') hb).mono ?_
  intro found later h
  apply h.imp
  rintro tokens message ⟨selector, words, argument, rfl, hs, ha, rfl⟩
  rw [Node.append_eq_atop (by rw [hs.kind_eq]; rfl) hs.leaf]
  exact .binaryMessage hs ha

theorem keywordSegment_reads (hi : Inner bound inner inner')
    (hb : (tokensIn view).length ≤ bound) (hl : bound < limit) (hl' : bound < limit') :
    Reads view (keywordSegment limit inner) (keywordSegment limit' inner')
      (Matched (Following .keyword (Derivation .primary) Prod.mk) view) :=
  followedBy_reads (fun _ hv => primary_reads hi (Nat.le_of_lt hv) hl hl') hb

def KeywordMessage (tokens : List Node) (message : Node) : Prop :=
  ∃ segments : List (Piece Node), segments ≠ [] ∧ tokens = Piece.tokensOf segments ∧
    message = .joined (Piece.values segments) ∧
    ∀ piece ∈ segments, Derivation .keywordSegment piece.tokens piece.value

/-- Selectors that were read together with their arguments are segments. -/
theorem exists_segments {pairs : List (Piece (Node × Node))}
    (hp : ∀ pair ∈ pairs, Following .keyword (Derivation .primary) Prod.mk pair.tokens pair.value) :
    ∃ segments : List (Piece Node), Piece.tokensOf segments = Piece.tokensOf pairs ∧
      Piece.values segments = (Piece.values pairs).map (fun pair => pair.1.atop [pair.2]) ∧
      ∀ piece ∈ segments, Derivation .keywordSegment piece.tokens piece.value := by
  induction pairs with
  | nil => exact ⟨[], rfl, rfl, by simp⟩
  | cons pair pairs ih =>
      obtain ⟨segments, htokens, hvalues, hs⟩ := ih fun pair hm => hp pair (by simp [hm])
      obtain ⟨selector, words, argument, ht, hk, ha, hv⟩ := hp pair (by simp)
      refine ⟨⟨selector :: words, selector.atop [argument]⟩ :: segments, by simp [ht, htokens],
        by simp [hv, hvalues], ?_⟩
      exact List.forall_mem_cons.mpr ⟨.keywordSegment hk ha, hs⟩

theorem keywordMessage_reads (hi : Inner bound inner inner')
    (hb : (tokensIn view).length ≤ bound) (hl : bound < limit) (hl' : bound < limit') :
    Reads view (keywordMessage limit inner) (keywordMessage limit' inner')
      (Matched KeywordMessage view) := by
  unfold keywordMessage
  apply (keywordSegment_reads hi hb hl hl').bind
  intro found later h
  cases found with
  | none => exact .pure h
  | some first =>
      obtain ⟨tokens, rfl, -, selector, words, argument, rfl, hs, ha, rfl⟩ := h
      simp only [tokensIn_append, List.length_append] at hb
      refine (many_reads (fun view hv => keywordSegment_reads hi hv hl hl') (by omega) (by omega)
        (by omega)).bind ?_
      rintro others left ⟨pairs, rest, rfl, rfl, rfl, hp⟩
      obtain ⟨segments, htokens, hvalues, hsegments⟩ := exists_segments hp
      let all : List (Piece Node) := ⟨selector :: words, selector.atop [argument]⟩ :: segments
      have hall : ∀ piece ∈ all, Derivation .keywordSegment piece.tokens piece.value :=
        List.forall_mem_cons.mpr ⟨.keywordSegment hs ha, hsegments⟩
      have hmessage : (Piece.values pairs).foldl addSegment (selector.append argument) =
          .joined (Piece.values all) := by
        rw [← joined_singleton hs, foldl_addSegment _ (by simp), ← hvalues]
        rfl
      exact .pure ⟨selector :: words ++ Piece.tokensOf pairs, by simp, by simp, all, by simp [all],
        by simp [all, htokens], hmessage, hall⟩

theorem messages_reads (hi : Inner bound inner inner')
    (hb : (tokensIn view).length ≤ bound) (hl : bound < limit) (hl' : bound < limit') :
    Reads view (messages limit inner) (messages limit' inner')
      (Matched (Derivation .messages) view) := by
  unfold messages
  refine (many_reads (fun view _ => accept_reads .identifier view) (Nat.le_refl _) (by omega)
    (by omega)).bind ?_
  rintro unary later ⟨names, rest, rfl, rfl, rfl, hu⟩
  simp only [tokensIn_append, List.length_append] at hb
  refine (many_reads (fun view hv => binaryMessage_reads hi hv hl hl') (by omega) (by omega)
    (by omega)).bind ?_
  rintro binary left ⟨pieces, rest, rfl, rfl, rfl, hp⟩
  simp only [tokensIn_append, List.length_append] at hb
  refine (keywordMessage_reads hi (by omega) hl hl').bind ?_
  intro last rest hk
  obtain ⟨segments, rfl, hlast, hs⟩ : ∃ segments : List (Piece Node),
      left = (Piece.tokensOf segments).map .ok ++ rest ∧
      last.toList = Node.keywordPart (Piece.values segments) ∧
      ∀ piece ∈ segments, Derivation .keywordSegment piece.tokens piece.value := by
    cases last with
    | none => exact ⟨[], hk.symm, rfl, by simp⟩
    | some message =>
        obtain ⟨tokens, rfl, -, segments, hne, rfl, rfl, hs⟩ := hk
        obtain ⟨first, others, rfl⟩ := List.exists_cons_of_ne_nil hne
        exact ⟨first :: others, rfl, rfl, hs⟩
  rw [hlast, List.append_assoc]
  split
  · rename_i hrun
    obtain ⟨rfl, rfl, rfl⟩ : names = [] ∧ pieces = [] ∧ segments = [] := by
      cases names <;> cases pieces <;> cases segments <;> simp_all [Node.keywordPart]
    exact .pure rfl
  · rename_i hrun
    have hsome : Piece.values names ≠ [] ∨ pieces ≠ [] ∨ segments ≠ [] := by
      cases names <;> cases pieces <;> cases segments <;> simp_all [Node.keywordPart]
    have hd := Derivation.messages (terminal_of_mem_values hu) hp hs hsome
    refine .pure ⟨Piece.values names ++ (Piece.tokensOf pieces ++ Piece.tokensOf segments),
      by simp [tokensOf_eq_values fun piece hm => (hu piece hm).1], hd.tokens_ne_nil, ?_⟩
    rwa [Node.appendAll_bare rfl _ hrun]

theorem cascade_reads (hi : Inner bound inner inner')
    (hb : (tokensIn view).length ≤ bound) (hl : bound < limit) (hl' : bound < limit') :
    Reads view (cascade limit inner) (cascade limit' inner')
      (Matched (Derivation .cascade) view) := by
  refine (followedBy_reads
    (fun _ hv => messages_reads hi (Nat.le_of_lt hv) hl hl') hb).mono ?_
  intro found later h
  apply h.imp
  rintro tokens run ⟨semicolon, words, _, rfl, hs, hr, rfl⟩
  exact .cascade hs hr

/-! ### Expressions -/

theorem basicExpression_reads (hi : Inner bound inner inner')
    (hb : (tokensIn view).length ≤ bound) (hl : bound < limit) (hl' : bound < limit') :
    Reads view (basicExpression limit inner) (basicExpression limit' inner')
      (Matched (Derivation .expression) view) := by
  unfold basicExpression
  apply (primary_reads hi hb hl hl').bind
  intro found later h
  cases found with
  | none => exact .pure h
  | some receiver =>
      obtain ⟨tokens, rfl, hne, hr⟩ := h
      simp only [tokensIn_append, List.length_append] at hb
      refine (messages_reads hi (by omega) hl hl').bind ?_
      intro run left hm
      obtain ⟨run, rfl, rfl, hrun⟩ : ∃ piece : Option (Piece Node),
          run = piece.map Piece.value ∧
          later = (Piece.tokensOf piece.toList).map .ok ++ left ∧
          ∀ word ∈ piece, Derivation .messages word.tokens word.value := by
        cases run with
        | none => exact ⟨none, rfl, hm.symm, by simp⟩
        | some run =>
            obtain ⟨words, rfl, -, hw⟩ := hm
            exact ⟨some ⟨words, run⟩, rfl, by simp, by simpa using hw⟩
      simp only [tokensIn_append, List.length_append] at hb
      refine (many_reads (fun view hv => cascade_reads hi hv hl hl') (by omega) (by omega)
        (by omega)).bind ?_
      rintro cascaded last ⟨pieces, rest, rfl, rfl, rfl, hp⟩
      refine .pure ⟨tokens ++ (Piece.tokensOf run.toList ++ Piece.tokensOf pieces), by simp,
        by simp [hne], ?_⟩
      rw [Node.appendAll_bare rfl _ (by simp)]
      have hvalues : (run.map Piece.value).toList = Piece.values run.toList := by
        cases run <;> rfl
      rw [hvalues]
      exact .send hr hrun hp

/-- A name, the sign behind it and the expression it is assigned. -/
inductive Assigned : List Node → Node → Prop where
  | mk {name sign tree : Node} {tokens : List Node} : Terminal .identifier name →
      Terminal .assignment sign → Derivation .expression tokens tree →
      Assigned (name :: sign :: tokens) (sign.atop [name, tree])

theorem Assigned.derivation {tokens : List Node} {tree : Node} (h : Assigned tokens tree) :
    Derivation .expression tokens tree := by
  cases h with
  | mk hn hs ht => exact .assignment hn hs ht

theorem assignment_reads (hi : Inner bound inner inner')
    (hb : (tokensIn view).length ≤ bound) :
    Reads view (assignment inner) (assignment inner') (Matched Assigned view) := by
  unfold assignment
  apply (accept_reads .identifier view).bind
  intro found later h
  cases found with
  | none => exact .pure h
  | some name =>
      obtain ⟨tokens, rfl, -, rfl, hn⟩ := h
      have hlt : (tokensIn later).length < bound := hb
      apply (accept_reads .assignment later).bind
      intro found left h
      cases found with
      | none =>
          obtain rfl : left = later := h
          exact (unread_returns hn.leaf left).bind_reads (.pure rfl)
      | some sign =>
          obtain ⟨tokens, rfl, -, rfl, hs⟩ := h
          have hlt' : (tokensIn left).length + 1 < bound := hlt
          refine (hi left (by omega)).bind ?_
          intro found last h
          cases found with
          | none => exact missingExpression_reads sign
          | some tree =>
              obtain ⟨tokens, rfl, -, ht⟩ := h
              refine .pure ⟨name :: sign :: tokens, rfl, by simp, ?_⟩
              rw [Node.append_append_eq_atop (by rw [hs.kind_eq]; rfl) hs.leaf]
              exact .mk hn hs ht

theorem expressionStep_reads (hi : Inner bound inner inner')
    (hb : (tokensIn view).length ≤ bound) (hl : bound < limit) (hl' : bound < limit') :
    Reads view (expressionStep limit inner) (expressionStep limit' inner')
      (Matched (Derivation .expression) view) := by
  unfold expressionStep
  apply (assignment_reads hi hb).bind
  intro found later h
  cases found with
  | none =>
      obtain rfl : later = view := h
      exact basicExpression_reads hi hb hl hl'
  | some node =>
      obtain ⟨tokens, rfl, hne, ha⟩ := h
      exact .pure ⟨tokens, rfl, hne, ha.derivation⟩

/-- Expressions nested at most `depth` deep, and `bottom` in place of any that lie deeper. -/
def expressionOver (bottom : Production) : Nat → Production
  | 0 => bottom
  | depth + 1 => expressionStep (depth + 1) (expressionOver bottom depth)

theorem expressionUpTo_eq (depth : Nat) :
    expressionUpTo depth = expressionOver (return none) depth := by
  induction depth with
  | zero => rfl
  | succ depth ih => rw [expressionUpTo, expressionOver, ih]

/-- An expression inside another one begins behind its first token, so the bottom is never
reached if the depth exceeds the number of tokens. -/
theorem expressionOver_reads (bottom bottom' : Production) {depth depth' : Nat}
    {view : List Reading} (hd : (tokensIn view).length < depth)
    (hd' : (tokensIn view).length < depth') :
    Reads view (expressionOver bottom depth) (expressionOver bottom' depth')
      (Matched (Derivation .expression) view) := by
  induction depth generalizing depth' view with
  | zero => omega
  | succ depth ih =>
      obtain ⟨depth', rfl⟩ := Nat.exists_eq_add_of_lt (Nat.zero_lt_of_lt hd')
      simp only [Nat.zero_add, expressionOver]
      have hi : Inner (tokensIn view).length (expressionOver bottom depth)
          (expressionOver bottom' depth') := fun later hl => ih (by omega) (by omega)
      exact expressionStep_reads hi (Nat.le_refl _) (by omega) (by omega)

end MiniSmalltalk.Grammar
