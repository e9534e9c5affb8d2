import MiniSmalltalk.Proofs.Grammar.Completeness.Reaching

/-! # Runs of messages

Unary messages come before binary ones and these before the one keyword message. Whatever
comes last may be continued; what precedes it is ended by what follows. -/

namespace MiniSmalltalk.Grammar

variable {α β : Type} {limit depth count : Nat} {view later rest : List Reading}

theorem followedBy_complete {kind : Kind} {reader : Nat → Nat → Reader (Option α)}
    {join : Node → α → β} {token : Node} {words : List Node} {part : α} (ht : Terminal kind token)
    (hp : Complete reader Always words part) :
    Complete (fun limit depth => followedBy kind (reader limit depth) join) Always
      (token :: words) (join token part) :=
  .always fun he => followedBy_returns ht (hp.returns he.tail trivial)

theorem accept_complete {kind : Kind} {token : Node} (h : Terminal kind token) :
    Complete (fun _ _ => accept kind) Always [token] token :=
  .always fun _ => accept_returns h _

theorem keywordSegment_reaches_self (he : Enough limit depth view)
    (hc : (tokensIn view).length < count) :
    Reaches view (many (keywordSegment limit (expressionUpTo depth)) count) view :=
  many_reaches_matched
    (fun _ hl => keywordSegment_reads he.inner hl he.repetitions he.repetitions) hc

theorem binaryMessage_reaches_self (he : Enough limit depth view)
    (hc : (tokensIn view).length < count) :
    Reaches view (many (binaryMessage limit (expressionUpTo depth)) count) view :=
  many_reaches_matched
    (fun _ hl => binaryMessage_reads he.inner hl he.repetitions he.repetitions) hc

theorem keywordMessage_reaches_self (he : Enough limit depth view) :
    Reaches view (keywordMessage limit (expressionUpTo depth)) view :=
  (keywordMessage_reads he.inner (Nat.le_refl _) he.repetitions he.repetitions).mono
    fun _ _ h => h.suffix

theorem many_accept_reaches {kind : Kind} {tokens : List Node}
    (ht : ∀ token ∈ tokens, Terminal kind token)
    (hl : (tokensIn (tokens.map .ok ++ rest)).length < limit) :
    Reaches (tokens.map .ok ++ rest) (many (accept kind) limit) rest := by
  have hself : ∀ {count : Nat} {later : List Reading}, (tokensIn later).length < count →
      Reaches later (many (accept kind) count) later :=
    fun hc => many_reaches_matched (fun view _ => accept_reads kind view) hc
  have hmany := @many_reaches _ limit _ rest (fun _ _ => accept kind) Always (singles tokens)
    (forall_mem_singles fun token hm => accept_complete (ht token hm)) (fun _ _ _ => trivial)
    (forall_mem_singles fun token _ => by simp) (fun _ hc => hself hc)
    ⟨(tokensOf_singles tokens).symm ▸ hl, Nat.le_refl _⟩
  rwa [tokensOf_singles] at hmany

theorem exists_pairs {segments : List (Piece Node)}
    (hp : AllCompleted .keywordSegment segments) :
    ∃ pairs : List (Piece (Node × Node)), Piece.tokensOf segments = Piece.tokensOf pairs ∧
      Piece.values segments = (Piece.values pairs).map (fun pair => pair.1.atop [pair.2]) ∧
      ∀ pair ∈ pairs, Terminal .keyword pair.value.1 ∧ pair.tokens ≠ [] ∧
        Complete (fun limit depth => keywordSegment limit (expressionUpTo depth)) Always pair.tokens
          pair.value := by
  induction segments with
  | nil => exact ⟨[], rfl, rfl, by simp⟩
  | cons segment segments ih =>
      obtain ⟨pairs, htokens, hvalues, hpairs⟩ := ih fun piece hm => hp piece (by simp [hm])
      obtain ⟨selector, words, argument, ht, hv, hs, ha⟩ := hp segment (by simp)
      refine ⟨⟨selector :: words, (selector, argument)⟩ :: pairs, by simp [ht, htokens],
        by simp [hv, hvalues], ?_⟩
      intro pair hm
      rcases List.mem_cons.mp hm with rfl | hm
      · exact ⟨hs, by simp, followedBy_complete hs ha⟩
      · exact hpairs pair hm

theorem keywordMessage_complete {segments : List (Piece Node)} (hne : segments ≠ [])
    (hp : AllCompleted .keywordSegment segments) :
    Complete (fun limit depth => keywordMessage limit (expressionUpTo depth))
      (Stops (isKind .keyword)) (Piece.tokensOf segments) (.joined (Piece.values segments)) := by
  obtain ⟨pairs, htokens, hvalues, hpairs⟩ := exists_pairs hp
  obtain ⟨first, others, rfl⟩ : ∃ first others, pairs = first :: others := by
    cases pairs with
    | nil =>
        cases segments with
        | nil => exact absurd rfl hne
        | cons segment segments => simp at hvalues
    | cons first others => exact ⟨first, others, rfl⟩
  obtain ⟨hkeyword, -, hfirst⟩ := hpairs first (by simp)
  have hothers := fun pair hm => hpairs pair (List.mem_cons_of_mem first hm)
  have hjoined : Node.joined (Piece.values segments) =
      (Piece.values others).foldl addSegment (first.value.1.append first.value.2) := by
    rw [← joined_singleton hkeyword, foldl_addSegment _ (by simp), hvalues]
    simp
  rw [htokens, hjoined, Piece.tokensOf_cons]
  constructor
  · intro limit depth rest he hr
    simp only [List.map_append, List.append_assoc] at he ⊢
    have hmany := many_complete_returns (fun pair hm => (hothers pair hm).2.2)
      (fun _ _ _ => trivial) (fun pair hm => (hothers pair hm).2.1) trivial
      (followedBy_returns_none hr) he.behind
    exact (hfirst.returns he trivial).bind (hmany.bind .pure)
  · intro limit depth rest he
    simp only [List.map_append, List.append_assoc] at he ⊢
    have hmany := many_reaches (fun pair hm => (hothers pair hm).2.2) (fun _ _ _ => trivial)
      (fun pair hm => (hothers pair hm).2.1) keywordSegment_reaches_self he.behind
    exact (hfirst.returns he trivial).bind_reaches hmany.map

theorem beginAll_segments {segments : List (Piece Node)}
    (hp : AllCompleted .keywordSegment segments) : BeginAll .keywordSegment segments := by
  intro piece hm
  obtain ⟨selector, words, argument, ht, -, hs, -⟩ := hp piece hm
  exact ⟨selector, words, ht, hs.begins (by decide) (by decide)⟩

theorem keywordPart_returns {segments : List (Piece Node)}
    (hp : AllCompleted .keywordSegment segments)
    (he : Enough limit depth ((Piece.tokensOf segments).map .ok ++ rest))
    (hr : Stops (isKind .keyword) rest) :
    ∃ last, Returns ((Piece.tokensOf segments).map .ok ++ rest)
        (keywordMessage limit (expressionUpTo depth)) last rest ∧
      last.toList = Node.keywordPart (Piece.values segments) := by
  cases segments with
  | nil => exact ⟨none, keywordMessage_returns_none hr, rfl⟩
  | cons segment segments =>
      have hmessage := keywordMessage_complete (by simp) hp
      exact ⟨_, hmessage.returns he hr, rfl⟩

section Messages

variable {unary : List Node} {binary segments : List (Piece Node)}
  (hu : ∀ name ∈ unary, Terminal .identifier name) (hb : AllCompleted .binaryMessage binary)
  (hbegin : BeginAll .binaryMessage binary) (hs : AllCompleted .keywordSegment segments)

include hu hb hbegin hs

theorem messages_returns (hne : unary ≠ [] ∨ binary ≠ [] ∨ segments ≠ [])
    (he : Enough limit depth (unary.map .ok ++ ((Piece.tokensOf binary).map .ok ++
      ((Piece.tokensOf segments).map .ok ++ rest))))
    (hr : Stops (isAnyOf (Phrase.firstKinds .messages)) rest) :
    Returns (unary.map .ok ++ ((Piece.tokensOf binary).map .ok ++
        ((Piece.tokensOf segments).map .ok ++ rest)))
      (messages limit (expressionUpTo depth))
      (some (.compose .messages
        (unary ++ (Piece.values binary ++ Node.keywordPart (Piece.values segments))))) rest := by
  have hbinary : Stops (isAnyOf [.identifier, .binary])
      ((Piece.tokensOf segments).map .ok ++ rest) :=
    (beginAll_segments hs).stops (by decide) fun _ => hr.anyOf (by decide)
  have hunary : Stops (isAnyOf [.identifier])
      ((Piece.tokensOf binary).map .ok ++ ((Piece.tokensOf segments).map .ok ++ rest)) :=
    hbegin.stops (by decide) fun _ => hbinary.anyOf (by decide)
  obtain ⟨last, hlast, hpart⟩ := keywordPart_returns hs he.behind.behind (hr.kind (by decide))
  have hmany := many_complete_returns hb (fun _ _ _ => trivial) hbegin.tokens_ne_nil trivial
    (followedBy_returns_none (hbinary.kind (by decide))) he.behind
  refine (many_accept_returns hu (hunary.kind (by decide)) he.repetitions).bind
    (hmany.bind (hlast.bind ?_))
  have hrun : unary ++ (Piece.values binary ++ Node.keywordPart (Piece.values segments)) ≠ [] := by
    cases unary <;> cases binary <;> cases segments <;> simp_all [Node.keywordPart]
  rw [hpart, List.append_assoc]
  split
  · contradiction
  · rw [Node.appendAll_bare rfl _ hrun]
    exact .pure

/-- The last part that is there may go on. What precedes it is read exactly. -/
theorem messages_reaches
    (he : Enough limit depth (unary.map .ok ++ ((Piece.tokensOf binary).map .ok ++
      ((Piece.tokensOf segments).map .ok ++ rest)))) :
    Reaches (unary.map .ok ++ ((Piece.tokensOf binary).map .ok ++
        ((Piece.tokensOf segments).map .ok ++ rest)))
      (messages limit (expressionUpTo depth)) rest := by
  by_cases hsegments : segments = []
  · subst hsegments
    by_cases hbinary : binary = []
    · subst hbinary
      apply (many_accept_reaches hu he.repetitions).bind
      intro names later hl
      have hlater := he.behind.suffix hl
      apply (binaryMessage_reaches_self hlater hlater.repetitions).bind
      intro others left hl'
      apply (keywordMessage_reaches_self (hlater.suffix hl')).bind
      intro last behind _
      split <;> exact Returns.pure.reaches
    · have hunary : Stops (isAnyOf [.identifier]) ((Piece.tokensOf binary).map .ok ++ rest) :=
        hbegin.stops (by decide) fun h => absurd h hbinary
      have hmany := many_reaches hb (fun _ _ _ => trivial) hbegin.tokens_ne_nil
        binaryMessage_reaches_self he.behind
      refine (many_accept_returns hu (hunary.kind (by decide)) he.repetitions).bind_reaches
        (hmany.bind ?_)
      intro others later hl
      apply (keywordMessage_reaches_self (he.behind.behind.suffix hl)).bind
      intro last behind _
      split <;> exact Returns.pure.reaches
  · have hkeyword : Stops (isAnyOf [.identifier, .binary])
        ((Piece.tokensOf segments).map .ok ++ rest) :=
      (beginAll_segments hs).stops (by decide) fun h => absurd h hsegments
    have hunary : Stops (isAnyOf [.identifier])
        ((Piece.tokensOf binary).map .ok ++ ((Piece.tokensOf segments).map .ok ++ rest)) :=
      hbegin.stops (by decide) fun _ => hkeyword.anyOf (by decide)
    have hmany := many_complete_returns hb (fun _ _ _ => trivial) hbegin.tokens_ne_nil trivial
      (followedBy_returns_none (hkeyword.kind (by decide))) he.behind
    have hmessage := (keywordMessage_complete hsegments hs).reaches he.behind.behind
    refine (many_accept_returns hu (hunary.kind (by decide)) he.repetitions).bind_reaches
      (hmany.bind_reaches (hmessage.bind ?_))
    intro last behind _
    split <;> exact Returns.pure.reaches

theorem messages_complete (hne : unary ≠ [] ∨ binary ≠ [] ∨ segments ≠ []) :
    Completed .messages (unary ++ (Piece.tokensOf binary ++ Piece.tokensOf segments))
      (.compose .messages
        (unary ++ (Piece.values binary ++ Node.keywordPart (Piece.values segments)))) := by
  constructor
  · intro limit depth rest he hr
    simp only [List.map_append, List.append_assoc] at he ⊢
    exact messages_returns hu hb hbegin hs hne he hr
  · intro limit depth rest he
    simp only [List.map_append, List.append_assoc] at he ⊢
    exact messages_reaches hu hb hbegin hs he

end Messages

end MiniSmalltalk.Grammar
