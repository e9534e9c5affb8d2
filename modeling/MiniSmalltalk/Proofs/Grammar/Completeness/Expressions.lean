import MiniSmalltalk.Proofs.Grammar.Completeness.Messages

/-! # Expressions

An expression is an assignment or a receiver with runs of messages. A name alone is both the
beginning of an assignment and a receiver, so what follows it decides. -/

namespace MiniSmalltalk.Grammar

variable {limit depth count : Nat} {view later rest : List Reading}

theorem cascade_complete {semicolon run : Node} {tokens : List Node}
    (hs : Terminal .semicolon semicolon) (hne : tokens ≠ [])
    (hr : Completed .messages tokens run) :
    Completed .cascade (semicolon :: tokens) run := by
  constructor
  · intro limit depth rest he hstop
    exact followedBy_returns hs (hr.returns he.tail hstop)
  · intro limit depth rest he
    have htail := he.tail
    have hsound := messages_reads htail.inner (Nat.le_refl _) htail.repetitions htail.repetitions
    refine (accept_returns hs _).bind_reaches ((hsound.and (hr.reaches htail)).bind ?_)
    intro result later h
    obtain ⟨hm, hl⟩ := h
    cases result with
    | none =>
        -- a run that is not found would have to be in front of itself
        have hsame : later = _ := hm
        have hlength : later.length = tokens.length + rest.length := by simp [hsame]
        have hpos := List.length_pos_iff.mpr hne
        have hle := hl.length_le
        omega
    | some found => exact .pure hl

section Run

variable {run : Option (Piece Node)}

theorem messagesPart_returns
    (hp : ∀ piece ∈ run, Completed .messages piece.tokens piece.value)
    (he : Enough limit depth ((Piece.tokensOf run.toList).map .ok ++ rest))
    (hr : Stops (isAnyOf (Phrase.firstKinds .messages)) rest) :
    ∃ found, Returns ((Piece.tokensOf run.toList).map .ok ++ rest)
        (messages limit (expressionUpTo depth)) found rest ∧
      found.toList = Piece.values run.toList := by
  cases run with
  | none => exact ⟨none, messages_returns_none hr he.repetitions, rfl⟩
  | some piece =>
      simp only [Option.toList_some, Piece.tokensOf_cons, Piece.tokensOf_nil, List.append_nil]
        at he ⊢
      exact ⟨_, (hp piece rfl).returns he hr, rfl⟩

theorem messagesPart_reaches
    (hp : ∀ piece ∈ run, Completed .messages piece.tokens piece.value)
    (he : Enough limit depth ((Piece.tokensOf run.toList).map .ok ++ rest)) :
    Reaches ((Piece.tokensOf run.toList).map .ok ++ rest)
      (messages limit (expressionUpTo depth)) rest := by
  cases run with
  | none =>
      exact (messages_reads he.inner (Nat.le_refl _) he.repetitions he.repetitions).mono
        fun _ _ h => h.suffix
  | some piece =>
      simp only [Option.toList_some, Piece.tokensOf_cons, Piece.tokensOf_nil, List.append_nil]
        at he ⊢
      exact (hp piece rfl).reaches he

end Run

theorem cascade_reaches_self (he : Enough limit depth view)
    (hc : (tokensIn view).length < count) :
    Reaches view (many (cascade limit (expressionUpTo depth)) count) view :=
  many_reaches_matched
    (fun _ hl => cascade_reads he.inner hl he.repetitions he.repetitions) hc

/-- An assignment that was found in place of a receiver took its name and more. -/
theorem Assigned.suffix {tokens words : List Node} {receiver tree : Node}
    (hr : Derivation .primary tokens receiver) (ha : Assigned words tree)
    (hv : tokens.map .ok ++ rest = words.map .ok ++ later) : later <:+ rest := by
  obtain @⟨name, sign, tree, words, hn, hs, ht⟩ := ha
  have hother : ∀ {token : Node} {kind : Kind} {left right : List Reading}, Terminal kind token →
      kind ≠ .identifier → .ok token :: left ≠ .ok name :: right := by
    intro token kind left right hk hne heq
    cases heq
    exact hne (hk.kind_eq.symm.trans hn.kind_eq)
  cases hr with
  | name hk =>
      simp only [List.map_cons, List.map_nil, List.cons_append, List.nil_append,
        List.cons.injEq] at hv
      rw [hv.2]
      exact ⟨.ok sign :: words.map .ok, by simp⟩
  | integer hk => exact absurd hv (hother hk (by decide))
  | negative hm hk => exact absurd hv (hother hm.toTerminal (by decide))
  | string hk => exact absurd hv (hother hk (by decide))
  | block ho => exact absurd hv (hother ho (by decide))
  | parenthesised ho => exact absurd hv (hother ho (by decide))

section Send

variable {receiver : Node} {tokens : List Node} {run : Option (Piece Node)}
  {cascades : List (Piece Node)} (hreceiver : Completed .primary tokens receiver)
  (hrun : ∀ piece ∈ run, Completed .messages piece.tokens piece.value)
  (hcascades : AllCompleted .cascade cascades) (hbegin : BeginAll .cascade cascades)

include hreceiver hrun hcascades hbegin

theorem basicExpression_returns
    (he : Enough limit depth (tokens.map .ok ++ ((Piece.tokensOf run.toList).map .ok ++
      ((Piece.tokensOf cascades).map .ok ++ rest))))
    (hr : Stops (isAnyOf [.identifier, .binary, .keyword, .semicolon]) rest) :
    Returns (tokens.map .ok ++ ((Piece.tokensOf run.toList).map .ok ++
        ((Piece.tokensOf cascades).map .ok ++ rest)))
      (basicExpression limit (expressionUpTo depth))
      (some (.compose .expression
        (receiver :: (Piece.values run.toList ++ Piece.values cascades)))) rest := by
  have hstop : Stops (isAnyOf (Phrase.firstKinds .messages))
      ((Piece.tokensOf cascades).map .ok ++ rest) :=
    hbegin.stops (by decide) fun _ => hr.anyOf (by decide)
  obtain ⟨found, hfound, hvalue⟩ := messagesPart_returns hrun he.behind hstop
  have hmany := many_complete_returns hcascades (hbegin.stops_piece (by decide))
    hbegin.tokens_ne_nil (hr.anyOf (by decide))
    (followedBy_returns_none (hr.kind (by decide))) he.behind.behind
  rw [← Node.appendAll_bare rfl .origin (by simp), ← hvalue]
  exact (hreceiver.returns he trivial).bind (hfound.bind (hmany.bind .pure))

theorem basicExpression_reaches
    (he : Enough limit depth (tokens.map .ok ++ ((Piece.tokensOf run.toList).map .ok ++
      ((Piece.tokensOf cascades).map .ok ++ rest)))) :
    Reaches (tokens.map .ok ++ ((Piece.tokensOf run.toList).map .ok ++
        ((Piece.tokensOf cascades).map .ok ++ rest)))
      (basicExpression limit (expressionUpTo depth)) rest := by
  apply (hreceiver.returns he trivial).bind_reaches
  by_cases hnil : cascades = []
  · subst hnil
    apply (messagesPart_reaches hrun he.behind).bind
    intro found later hl
    have hlater := he.behind.behind.suffix hl
    exact (cascade_reaches_self hlater hlater.repetitions).map
  · have hstop : Stops (isAnyOf (Phrase.firstKinds .messages))
        ((Piece.tokensOf cascades).map .ok ++ rest) :=
      hbegin.stops (by decide) fun h => absurd h hnil
    obtain ⟨found, hfound, -⟩ := messagesPart_returns hrun he.behind hstop
    have hmany := many_reaches hcascades (hbegin.stops_piece (by decide)) hbegin.tokens_ne_nil
      cascade_reaches_self he.behind.behind
    exact hfound.bind_reaches hmany.map

variable (hd : Derivation .primary tokens receiver) (hbegin' : BeginAll .messages run.toList)

include hd hbegin'

theorem send_returns
    (he : Enough limit depth (tokens.map .ok ++ ((Piece.tokensOf run.toList).map .ok ++
      ((Piece.tokensOf cascades).map .ok ++ rest))))
    (hr : Stops (isAnyOf continuesExpression) rest) :
    Returns (tokens.map .ok ++ ((Piece.tokensOf run.toList).map .ok ++
        ((Piece.tokensOf cascades).map .ok ++ rest)))
      (expressionUpTo (depth + 1))
      (some (.compose .expression
        (receiver :: (Piece.values run.toList ++ Piece.values cascades)))) rest := by
  have hcascade : Stops (isAnyOf [.assignment]) ((Piece.tokensOf cascades).map .ok ++ rest) :=
    hbegin.stops (by decide) fun _ => hr.anyOf (by decide)
  have hstop : Stops (isAnyOf [.assignment]) ((Piece.tokensOf run.toList).map .ok ++
      ((Piece.tokensOf cascades).map .ok ++ rest)) :=
    hbegin'.stops (by decide) fun _ => hcascade
  exact (assignment_returns_none hd (hstop.kind (by decide))).bind
    (basicExpression_returns hreceiver hrun hcascades hbegin he.deepen (hr.anyOf (by decide)))

theorem send_reaches
    (he : Enough limit depth (tokens.map .ok ++ ((Piece.tokensOf run.toList).map .ok ++
      ((Piece.tokensOf cascades).map .ok ++ rest)))) :
    Reaches (tokens.map .ok ++ ((Piece.tokensOf run.toList).map .ok ++
        ((Piece.tokensOf cascades).map .ok ++ rest))) (expressionUpTo (depth + 1)) rest := by
  have hbasic := basicExpression_reaches hreceiver hrun hcascades hbegin he.deepen
  by_cases halone : run.toList = [] ∧ cascades = []
  · -- only behind a receiver alone can a sign turn it into an assignment
    apply Reads.bind (assignment_reads he.inner (Nat.le_refl _))
    intro found later h
    cases found with
    | none =>
        obtain rfl : later = _ := h
        exact hbasic
    | some tree =>
        obtain ⟨words, hv, -, ha⟩ := h
        rw [halone.1, halone.2] at hv
        exact .pure (ha.suffix hd hv)
  · have hstop : Stops (isAnyOf [.assignment]) ((Piece.tokensOf run.toList).map .ok ++
        ((Piece.tokensOf cascades).map .ok ++ rest)) := by
      refine hbegin'.stops (by decide) fun hr => hbegin.stops (by decide) fun hc => ?_
      exact absurd ⟨hr, hc⟩ halone
    exact (assignment_returns_none hd (hstop.kind (by decide))).bind_reaches hbasic

theorem send_complete :
    Completed .expression
      (tokens ++ (Piece.tokensOf run.toList ++ Piece.tokensOf cascades))
      (.compose .expression
        (receiver :: (Piece.values run.toList ++ Piece.values cascades))) := by
  constructor
  · intro limit depth rest he hr
    simp only [List.map_append, List.append_assoc] at he ⊢
    exact send_returns hreceiver hrun hcascades hbegin hd hbegin' he hr
  · intro limit depth rest he
    simp only [List.map_append, List.append_assoc] at he ⊢
    exact send_reaches hreceiver hrun hcascades hbegin hd hbegin' he

end Send

theorem assignment_complete {name sign tree : Node} {tokens : List Node}
    {ended : List Reading → Prop} (hn : Terminal .identifier name) (hs : Terminal .assignment sign)
    (ht : Complete (fun _ depth => expressionUpTo (depth + 1)) ended tokens tree) :
    Complete (fun _ depth => expressionUpTo (depth + 1)) ended (name :: sign :: tokens)
      (sign.atop [name, tree]) := by
  constructor
  · intro limit depth rest he hr
    obtain ⟨fewer, rfl, hinside⟩ := he.inside
    rw [← Node.append_append_eq_atop (by rw [hs.kind_eq]; rfl) hs.leaf]
    have hassignment : Returns _ (assignment (expressionUpTo (fewer + 1))) _ rest :=
      (accept_returns hn _).bind ((accept_returns hs _).bind
        ((ht.returns hinside.tail hr).bind .pure))
    exact hassignment.bind .pure
  · intro limit depth rest he
    obtain ⟨fewer, rfl, hinside⟩ := he.inside
    have hassignment : Reads ((name :: sign :: tokens).map .ok ++ rest)
        (assignment (expressionUpTo (fewer + 1))) (assignment (expressionUpTo (fewer + 1)))
        fun found later => found.isSome = true ∧ later <:+ rest := by
      apply (accept_returns hn _).bind_reads
      apply (accept_returns hs _).bind_reads
      apply Reads.bind (ht.reaches hinside.tail)
      intro found later hl
      cases found with
      | none => exact missingExpression_reads sign
      | some value => exact .pure ⟨rfl, hl⟩
    apply hassignment.bind
    intro found later h
    obtain ⟨hsome, hl⟩ := h
    cases found with
    | none => cases hsome
    | some node => exact .pure hl

end MiniSmalltalk.Grammar
