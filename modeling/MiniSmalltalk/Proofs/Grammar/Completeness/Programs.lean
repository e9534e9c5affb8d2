import MiniSmalltalk.Proofs.Grammar.Completeness.Expressions

/-! # Programs

Statements, the receivers that contain expressions or statements, and the induction over all
derivations. -/

namespace MiniSmalltalk.Grammar

variable {limit depth count : Nat} {view later rest : List Reading}

/-! ### Statements -/

theorem nextStatement_complete {dot tree : Node} {tokens : List Node}
    {ended : List Reading → Prop} (hd : Terminal .dot dot)
    (ht : Complete (fun _ depth => expressionUpTo (depth + 1)) ended tokens tree) :
    Complete (fun _ depth => nextStatement (expressionUpTo (depth + 1))) ended (dot :: tokens)
      tree := by
  constructor
  · intro limit depth rest he hr
    exact (accept_returns hd _).bind (ht.returns he.tail hr)
  · intro limit depth rest he
    exact (accept_returns hd _).bind_reaches (ht.reaches he.tail)

theorem Optionally.stops {last : List Node} (h : Optionally .dot last) {kinds : List Kind}
    (hk : .dot ∉ kinds) (hr : last = [] → Stops (isAnyOf kinds) rest) :
    Stops (isAnyOf kinds) (last.map .ok ++ rest) := by
  cases h with
  | absent => exact hr rfl
  | present hd => exact hd.stops hk rest

theorem accept_dot_returns {last : List Node} (h : Optionally .dot last)
    (hr : last = [] → Stops (isKind .dot) rest) :
    ∃ found, Returns (last.map .ok ++ rest) (accept .dot) found rest := by
  cases h with
  | absent => exact ⟨none, accept_returns_none (hr rfl)⟩
  | present hd => exact ⟨_, accept_returns hd rest⟩

theorem returnStatement_returns {inner : Production} {caret tree : Node}
    (hc : Terminal .answer caret) (ht : Returns view inner (some tree) later) :
    Returns (.ok caret :: view) (returnStatement inner) (some (caret.atop [tree])) later := by
  rw [← Node.append_eq_atop (by rw [hc.kind_eq]; rfl) hc.leaf]
  exact (accept_returns hc view).bind (ht.bind .pure)

section Answer

variable {caret tree : Node} {tokens last : List Node} (hc : Terminal .answer caret)
  (ht : Completed .expression tokens tree) (hl : Optionally .dot last)

include hc ht hl

theorem answer_returns
    (he : Enough limit depth (.ok caret :: (tokens.map .ok ++ (last.map .ok ++ rest))))
    (hr : Stops (isAnyOf continuesProgram) rest) :
    Returns (.ok caret :: (tokens.map .ok ++ (last.map .ok ++ rest)))
      (statements limit (expressionUpTo (depth + 1))) (some (caret.atop [tree])) rest := by
  have hstop : Stops (isAnyOf continuesExpression) (last.map .ok ++ rest) :=
    hl.stops (by decide) fun _ => hr.anyOf (by decide)
  obtain ⟨found, hdot⟩ := accept_dot_returns hl fun _ => hr.kind (by decide)
  exact (returnStatement_returns hc (ht.returns he.tail hstop)).bind (hdot.bind .pure)

theorem answer_reaches
    (he : Enough limit depth (.ok caret :: (tokens.map .ok ++ (last.map .ok ++ rest)))) :
    Reaches (.ok caret :: (tokens.map .ok ++ (last.map .ok ++ rest)))
      (statements limit (expressionUpTo (depth + 1))) rest := by
  by_cases hnil : last = []
  · subst hnil
    have hanswer : Reads (.ok caret :: (tokens.map .ok ++ rest))
        (returnStatement (expressionUpTo (depth + 1)))
        (returnStatement (expressionUpTo (depth + 1)))
        fun found later => found.isSome = true ∧ later <:+ rest := by
      apply (accept_returns hc _).bind_reads
      apply Reads.bind (ht.reaches he.tail)
      intro found later hs
      cases found with
      | none => exact missingExpression_reads caret
      | some value => exact .pure ⟨rfl, hs⟩
    apply hanswer.bind
    intro found later h
    cases found with
    | none => cases h.1
    | some statement =>
        apply (accept_dot_reads later).bind
        intro dot left hdot
        exact .pure (hdot.suffix.trans h.2)
  · have hstop : Stops (isAnyOf continuesExpression) (last.map .ok ++ rest) :=
      hl.stops (by decide) fun h => absurd h hnil
    obtain ⟨found, hdot⟩ := @accept_dot_returns rest _ hl fun h => absurd h hnil
    exact (returnStatement_returns hc (ht.returns he.tail hstop)).bind_reaches
      (hdot.bind_reaches Returns.pure.reaches)

theorem answer_complete : Completed .program (caret :: (tokens ++ last)) (caret.atop [tree]) := by
  constructor
  · intro limit depth rest he hr
    simp only [List.map_cons, List.map_append, List.cons_append, List.append_assoc] at he ⊢
    exact answer_returns hc ht hl he hr
  · intro limit depth rest he
    simp only [List.map_cons, List.map_append, List.cons_append, List.append_assoc] at he ⊢
    exact answer_reaches hc ht hl he

end Answer

theorem nextStatement_reaches_self (he : Enough limit depth view)
    (hc : (tokensIn view).length < count) :
    Reaches view (many (nextStatement (expressionUpTo (depth + 1))) count) view := by
  have hnext : Enough limit (depth + 1) view := ⟨he.repetitions, Nat.le_succ_of_le he.levels⟩
  exact many_reaches_self (fun later hl => nextStatement_reads hnext.inner hl) DotPassed.suffix hc

/-- The dot behind the last statement is taken, whether another statement follows or not. -/
theorem nextStatement_reaches_dot {dot : Node} (hd : Terminal .dot dot)
    (he : Enough limit depth (.ok dot :: rest)) (hc : (tokensIn (.ok dot :: rest)).length < count) :
    Reaches (.ok dot :: rest) (many (nextStatement (expressionUpTo (depth + 1))) count) rest := by
  have hnext : Enough limit (depth + 1) (.ok dot :: rest) :=
    ⟨he.repetitions, Nat.le_succ_of_le he.levels⟩
  cases count with
  | zero => omega
  | succ count =>
      apply Reads.bind (nextStatement_reads hnext.inner (Nat.le_refl _))
      intro found later h
      cases found with
      | none =>
          rcases h with habsent | hpresent
          · have hfails := habsent dot rest rfl
            simp [hd.isKind] at hfails
          · exact .pure (List.suffix_refl _)
      | some statement =>
          obtain ⟨tokens, hv, hne, -⟩ := h
          have hl : later <:+ rest := by
            obtain ⟨first, words, rfl⟩ := List.exists_cons_of_ne_nil hne
            simp only [List.map_cons, List.cons_append, List.cons.injEq] at hv
            exact ⟨words.map .ok, hv.2.symm⟩
          have hle := length_tokensIn_le_of_suffix hl
          rw [tokensIn_cons_ok, List.length_cons] at hc
          refine Reads.bind (nextStatement_reaches_self (he.tail.suffix hl) (by omega)) ?_
          intro others left hs
          exact .pure (hs.trans hl)

theorem returnStatement_returns_none {inner : Production} {tokens : List Node} {tree : Node}
    (h : Derivation .expression tokens tree) (later : List Reading) :
    Returns (tokens.map .ok ++ later) (returnStatement inner) none (tokens.map .ok ++ later) := by
  obtain ⟨token, words, rfl, hb⟩ := h.begins
  have hstop : Stops (isAnyOf [.answer]) ((token :: words).map .ok ++ later) :=
    hb.stops (by decide) _
  exact (accept_returns_none (hstop.kind (by decide))).bind .pure

section Statements

variable {first : Node} {tokens last : List Node} {others : List (Piece Node)}
  (hd : Derivation .expression tokens first) (hf : Completed .expression tokens first)
  (ho : AllCompleted .nextStatement others) (hbegin : BeginAll .nextStatement others)
  (hl : Optionally .dot last)

include hd hf ho hbegin hl

theorem statements_returns
    (he : Enough limit depth (tokens.map .ok ++ ((Piece.tokensOf others).map .ok ++
      (last.map .ok ++ rest))))
    (hr : Stops (isAnyOf continuesProgram) rest) :
    Returns (tokens.map .ok ++ ((Piece.tokensOf others).map .ok ++ (last.map .ok ++ rest)))
      (statements limit (expressionUpTo (depth + 1)))
      (some (.statementsOf (first :: Piece.values others))) rest := by
  have hlast : Stops (isAnyOf continuesExpression) (last.map .ok ++ rest) :=
    hl.stops (by decide) fun _ => hr.anyOf (by decide)
  have hfirst : Stops (isAnyOf continuesExpression)
      ((Piece.tokensOf others).map .ok ++ (last.map .ok ++ rest)) :=
    hbegin.stops (by decide) fun _ => hlast
  have hend : Returns (last.map .ok ++ rest) (nextStatement (expressionUpTo (depth + 1))) none
      rest := by
    cases hl with
    | absent => exact (accept_returns_none (hr.kind (by decide))).bind .pure
    | present hdot =>
        exact (accept_returns hdot rest).bind (expressionStep_returns_none (hr.anyOf (by decide)))
  have hmany := many_complete_returns ho (hbegin.stops_piece (by decide)) hbegin.tokens_ne_nil hlast
    hend he.behind
  apply (returnStatement_returns_none hd _).bind
  apply (hf.returns he hfirst).bind
  apply hmany.bind
  rw [sequence_cons]
  exact .pure

theorem statements_reaches
    (he : Enough limit depth (tokens.map .ok ++ ((Piece.tokensOf others).map .ok ++
      (last.map .ok ++ rest)))) :
    Reaches (tokens.map .ok ++ ((Piece.tokensOf others).map .ok ++ (last.map .ok ++ rest)))
      (statements limit (expressionUpTo (depth + 1))) rest := by
  have hstops : ∀ piece ∈ others, ∀ later,
      Stops (isAnyOf continuesExpression) (piece.tokens.map .ok ++ later) :=
    hbegin.stops_piece (by decide)
  apply (returnStatement_returns_none hd _).bind_reaches
  cases hl with
  | @present dot hdot =>
      have hlast : Stops (isAnyOf continuesExpression) (.ok dot :: rest) :=
        hdot.stops (by decide) rest
      have hfirst : Stops (isAnyOf continuesExpression)
          ((Piece.tokensOf others).map .ok ++ .ok dot :: rest) :=
        hbegin.stops (by decide) fun _ => hlast
      have hmany := many_continues ho hstops hbegin.tokens_ne_nil hlast
        (fun hc => nextStatement_reaches_dot hdot he.behind.behind hc) he.behind
        he.behind.repetitions
      exact (hf.returns he hfirst).bind_reaches hmany.map
  | absent =>
      by_cases hnil : others = []
      · subst hnil
        apply (hf.reaches he).bind
        intro found later hs
        cases found with
        | none => exact Returns.pure.reaches
        | some value =>
            have hlater := he.behind.suffix hs
            exact (nextStatement_reaches_self hlater hlater.repetitions).map
      · have hfirst : Stops (isAnyOf continuesExpression)
            ((Piece.tokensOf others).map .ok ++ rest) :=
          hbegin.stops (by decide) fun h => absurd h hnil
        have hmany := many_reaches ho hstops hbegin.tokens_ne_nil nextStatement_reaches_self
          he.behind
        exact (hf.returns he hfirst).bind_reaches hmany.map

theorem statements_complete :
    Completed .program (tokens ++ (Piece.tokensOf others ++ last))
      (.statementsOf (first :: Piece.values others)) := by
  constructor
  · intro limit depth rest he hr
    simp only [List.map_append, List.append_assoc] at he ⊢
    exact statements_returns hd hf ho hbegin hl he hr
  · intro limit depth rest he
    simp only [List.map_append, List.append_assoc] at he ⊢
    exact statements_reaches hd hf ho hbegin hl he

end Statements

/-! ### Receivers -/

theorem Begins.stops_bar {token : Node} (h : Begins .program token) (later : List Reading) :
    Stops (isBinary "|") (.ok token :: later) := by
  refine .before h.leaf ?_
  by_cases hk : token.kind = .binary
  · have hsign := h.sign (by decide) (by decide) hk
    simp [isBinary, hsign]
  · simp [isBinary, hk]

theorem blockConstructor_complete {opening closing : Node}
    {tokens tokens' arguments names : List Node} {body : Option (Piece Node)}
    (ho : Terminal .leftSquareBracket opening) (hpar : Parameters tokens arguments)
    (htmp : Temporaries tokens' names) (hbegin : BeginAll .program body.toList)
    (hb : ∀ piece ∈ body, Completed .program piece.tokens piece.value)
    (hc : Terminal .rightSquareBracket closing)
    (he : Enough limit depth (.ok opening :: (tokens.map .ok ++ (tokens'.map .ok ++
      ((Piece.tokensOf body.toList).map .ok ++ .ok closing :: rest))))) :
    Returns (.ok opening :: (tokens.map .ok ++ (tokens'.map .ok ++
        ((Piece.tokensOf body.toList).map .ok ++ .ok closing :: rest))))
      (blockConstructor limit (expressionUpTo depth))
      (some (.enclose .block opening closing
        (arguments ++ (names ++ Piece.values body.toList)))) rest := by
  obtain ⟨fewer, rfl, hinside⟩ := he.inside
  have hwords := hinside.behind.behind
  have hcolon : Stops (isAnyOf [.colon])
      ((Piece.tokensOf body.toList).map .ok ++ .ok closing :: rest) :=
    hbegin.stops (by decide) fun _ => hc.stops (by decide) rest
  cases body with
  | none =>
      have hend : Stops (isAnyOf (.binary :: Phrase.firstKinds .program)) (.ok closing :: rest) :=
        hc.stops (by decide) rest
      have hbody : Returns (.ok closing :: rest) (statements limit (expressionUpTo (fewer + 1)))
          none (.ok closing :: rest) :=
        statements_returns_none (hend.anyOf (by decide))
          (expressionStep_returns_none (hend.anyOf (by decide)))
      exact @blockConstructor_returns limit _ rest opening closing _ _ [] _ _ none ho hpar htmp
        (hcolon.kind (by decide)) (hend.binary (by decide) "|") hbody hc hinside.repetitions
  | some piece =>
      obtain ⟨token, words, hpiece, hb'⟩ := hbegin piece (by simp)
      simp only [Option.toList_some, Piece.tokensOf_cons, Piece.tokensOf_nil, List.append_nil]
        at hwords hinside hcolon ⊢
      have hbar : Stops (isBinary "|") (piece.tokens.map .ok ++ .ok closing :: rest) := by
        rw [hpiece]
        exact hb'.stops_bar _
      have hbody := (hb piece rfl).returns hwords (hc.stops (by decide) rest)
      exact @blockConstructor_returns limit _ rest opening closing _ _ _ _ _ (some piece.value) ho
        hpar htmp (hcolon.kind (by decide)) hbar hbody hc hinside.repetitions

theorem block_complete {opening closing : Node} {tokens tokens' arguments names : List Node}
    {body : Option (Piece Node)} (ho : Terminal .leftSquareBracket opening)
    (hpar : Parameters tokens arguments) (htmp : Temporaries tokens' names)
    (hbegin : BeginAll .program body.toList)
    (hb : ∀ piece ∈ body, Completed .program piece.tokens piece.value)
    (hc : Terminal .rightSquareBracket closing) :
    Completed .primary
      (opening :: (tokens ++ (tokens' ++ (Piece.tokensOf body.toList ++ [closing]))))
      (.enclose .block opening closing (arguments ++ (names ++ Piece.values body.toList))) := by
  refine .always ?_
  intro limit depth rest he
  simp only [List.map_cons, List.map_append, List.map_nil, List.cons_append, List.append_assoc,
    List.nil_append] at he ⊢
  exact primary_returns_block ho (blockConstructor_complete ho hpar htmp hbegin hb hc he)

theorem parenthesised_complete {opening closing tree : Node} {tokens : List Node}
    (ho : Terminal .leftParenthesis opening)
    (ht : Completed .expression tokens tree)
    (hc : Terminal .rightParenthesis closing) :
    Completed .primary (opening :: (tokens ++ [closing])) tree := by
  refine .always ?_
  intro limit depth rest he
  simp only [List.map_cons, List.map_append, List.map_nil, List.cons_append, List.append_assoc,
    List.nil_append] at he ⊢
  obtain ⟨fewer, rfl, hinside⟩ := he.inside
  exact primary_returns_parenthesised ho (ht.returns hinside (hc.stops (by decide) rest)) hc

/-! ### All phrases -/

theorem Derivation.completed {phrase : Phrase} {tokens : List Node} {tree : Node}
    (h : Derivation phrase tokens tree) : Completed phrase tokens tree := by
  induction h with
  | answer hc _ hl ih => exact answer_complete hc ih hl
  | statements hd ho hl ihf iho => exact statements_complete hd ihf iho (beginAll ho) hl
  | nextStatement hd _ ih => exact nextStatement_complete hd ih
  | assignment hn hs _ ih => exact assignment_complete hn hs ih
  | send hd hr hc ihd ihr ihc =>
      refine send_complete ihd ihr ihc (beginAll hc) hd (beginAll ?_)
      simpa using hr
  | cascade hs hr ih => exact cascade_complete hs hr.tokens_ne_nil ih
  | messages hu hb _ hne ihb ihs => exact messages_complete hu ihb (beginAll hb) ihs hne
  | binaryMessage hs _ ih =>
      rw [← Node.append_eq_atop (by rw [hs.kind_eq]; rfl) hs.leaf]
      exact followedBy_complete hs ih
  | keywordSegment hs _ ih => exact ⟨_, _, _, rfl, rfl, hs, ih⟩
  | name ht => exact .always fun _ => primary_returns_name ht _
  | integer ht =>
      exact .always fun _ => primary_returns_literal (ht.stops (by decide) _)
        (literal_returns_integer ht _)
  | negative hm ht =>
      exact .always fun _ => primary_returns_literal (hm.stops (by decide) _)
        (literal_returns_negative hm ht _)
  | string ht =>
      exact .always fun _ => primary_returns_literal (ht.stops (by decide) _)
        (literal_returns_string ht _)
  | block ho hpar htmp hb hc ih =>
      refine block_complete ho hpar htmp (beginAll ?_) ih hc
      simpa using hb
  | parenthesised ho _ hc ih => exact parenthesised_complete ho ih hc

end MiniSmalltalk.Grammar
