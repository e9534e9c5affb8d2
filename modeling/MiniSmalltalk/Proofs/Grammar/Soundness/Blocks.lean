import MiniSmalltalk.Proofs.Grammar.Soundness.Declarations

/-! # Soundness of statements and receivers

The statements speak of two readers of inner expressions at once: they may differ as long as
they agree on the tokens ahead. -/

namespace MiniSmalltalk.Grammar

/-! ### Readers of inner expressions -/

/-- Two readers do the same wherever fewer than `bound` tokens lie ahead, and read
expressions there. -/
def Inner (bound : Nat) (inner inner' : Production) : Prop :=
  ∀ view, (tokensIn view).length < bound →
    Reads view inner inner' (Matched (Derivation .expression) view)

theorem Inner.mono {bound smaller : Nat} {inner inner' : Production} (h : Inner bound inner inner')
    (hle : smaller ≤ bound) : Inner smaller inner inner' :=
  fun view hv => h view (Nat.lt_of_lt_of_le hv hle)

variable {bound limit limit' : Nat} {inner inner' : Production} {view : List Reading}

/-! ### Statements -/

inductive Answer : List Node → Node → Prop where
  | mk {caret tree : Node} {tokens : List Node} : Terminal .answer caret →
      Derivation .expression tokens tree → Answer (caret :: tokens) (caret.atop [tree])

theorem returnStatement_reads (hi : Inner bound inner inner')
    (hb : (tokensIn view).length ≤ bound) :
    Reads view (returnStatement inner) (returnStatement inner') (Matched Answer view) := by
  unfold returnStatement
  apply (accept_reads .answer view).bind
  intro found later h
  cases found with
  | none => exact .pure h
  | some caret =>
      obtain ⟨tokens, rfl, -, rfl, hc⟩ := h
      apply (hi later hb).bind
      intro found left h
      cases found with
      | none => exact missingExpression_reads caret
      | some tree =>
          obtain ⟨tokens, rfl, -, ht⟩ := h
          refine .pure ⟨caret :: tokens, rfl, by simp, ?_⟩
          rw [Node.append_eq_atop (by rw [hc.kind_eq]; rfl) hc.leaf]
          exact .mk hc ht

/-- Where no statement follows, a dot is passed over all the same. -/
inductive DotPassed : List Reading → List Reading → Prop where
  | absent {view : List Reading} : Declines (isKind .dot) view → DotPassed view view
  | present {dot : Node} {later : List Reading} : Terminal .dot dot →
      DotPassed (.ok dot :: later) later

theorem DotPassed.optionally {view later : List Reading} (h : DotPassed view later) :
    ∃ last, Optionally .dot last ∧ view = last.map .ok ++ later := by
  cases h with
  | absent => exact ⟨[], .absent, rfl⟩
  | present hd => exact ⟨[_], .present hd, rfl⟩

theorem accept_dot_reads (view : List Reading) :
    Reads view (accept .dot) (accept .dot) fun _ later => DotPassed view later := by
  apply (acceptIf_reads (isKind .dot) view).mono
  intro found later h
  cases found with
  | none =>
      obtain ⟨rfl, hd⟩ := h
      exact .absent hd
  | some dot =>
      obtain ⟨rfl, hl, hk⟩ := h
      exact .present (terminal_of_isKind hl hk)

theorem nextStatement_reads (hi : Inner bound inner inner')
    (hb : (tokensIn view).length ≤ bound) :
    Reads view (nextStatement inner) (nextStatement inner')
      (Found (Derivation .nextStatement) DotPassed view) := by
  unfold nextStatement
  apply (acceptIf_reads (isKind .dot) view).bind
  intro found later h
  cases found with
  | none =>
      obtain ⟨rfl, hd⟩ := h
      exact .pure (.absent hd)
  | some dot =>
      obtain ⟨rfl, hl, hk⟩ := h
      have hd := terminal_of_isKind hl hk
      apply (hi later hb).mono
      intro found left h
      cases found with
      | none =>
          obtain rfl : left = later := h
          exact .present hd
      | some tree =>
          obtain ⟨tokens, rfl, -, ht⟩ := h
          exact ⟨dot :: tokens, rfl, by simp, .nextStatement hd ht⟩

/-- Statements call the inner reader at once, so it has to cope with the whole view. -/
theorem statements_reads (hi : Inner (bound + 1) inner inner')
    (hb : (tokensIn view).length ≤ bound) (hl : bound < limit) (hl' : bound < limit') :
    Reads view (statements limit inner) (statements limit' inner')
      (Matched (Derivation .program) view) := by
  have hi' : Inner bound inner inner' := hi.mono (Nat.le_succ bound)
  unfold statements
  apply (returnStatement_reads hi' hb).bind
  intro found later h
  cases found with
  | none =>
      obtain rfl : later = view := h
      apply (hi later (Nat.lt_succ_of_le hb)).bind
      intro found left h
      cases found with
      | none => exact .pure h
      | some first =>
          obtain ⟨tokens, rfl, hne, hfirst⟩ := h
          simp only [tokensIn_append, List.length_append] at hb
          refine (many_reads (fun view hv => nextStatement_reads hi' hv) (by omega) (by omega)
            (by omega)).bind ?_
          rintro others last ⟨pieces, rest, rfl, hdot, rfl, hp⟩
          obtain ⟨dots, hdots, rfl⟩ := hdot.optionally
          rw [sequence_cons]
          refine .pure ⟨tokens ++ (Piece.tokensOf pieces ++ dots), by simp, by simp [hne], ?_⟩
          exact .statements hfirst hp hdots
  | some statement =>
      obtain ⟨tokens, rfl, -, ha⟩ := h
      apply (accept_dot_reads later).bind
      rintro _ left hdot
      obtain ⟨dots, hdots, rfl⟩ := hdot.optionally
      cases ha with
      | @mk caret tree tokens hc ht =>
          exact .pure ⟨caret :: (tokens ++ dots), by simp, by simp, .answer hc ht hdots⟩

/-! ### Receivers -/

inductive BlockParts : List Node → List Node → Prop where
  | mk {tokens tokens' arguments names : List Node} {body : Option (Piece Node)} :
      Parameters tokens arguments → Temporaries tokens' names →
      (∀ piece ∈ body, Derivation .program piece.tokens piece.value) →
      BlockParts (tokens ++ (tokens' ++ Piece.tokensOf body.toList))
        (arguments ++ (names ++ Piece.values body.toList))

/-- What the body of a block comes to. It always matches, possibly no token at all. -/
def BodyRead (view : List Reading) : Option Node → List Reading → Prop
  | none, _ => False
  | some node, later => ∃ tokens parts : List Node, view = tokens.map .ok ++ later ∧
      BlockParts tokens parts ∧ node = (Node.bare .block .origin).appendAll parts

theorem blockBody_reads (hi : Inner (bound + 1) inner inner')
    (hb : (tokensIn view).length ≤ bound) (hl : bound < limit) (hl' : bound < limit') :
    Reads view (blockBody limit inner) (blockBody limit' inner') (BodyRead view) := by
  unfold blockBody
  refine (blockArguments_reads (by omega) (by omega)).bind ?_
  intro arguments later ha
  obtain ⟨tokens, rfl, hpar⟩ : ∃ tokens : List Node, view = tokens.map .ok ++ later ∧
      Parameters tokens arguments.toList := by
    cases arguments with
    | none => exact ⟨[], ha.symm, .absent⟩
    | some node =>
        obtain ⟨tokens, rfl, -, hp⟩ := ha
        exact ⟨tokens, rfl, hp⟩
  simp only [tokensIn_append, List.length_append] at hb
  refine (temporaries_reads (by omega) (by omega)).bind ?_
  intro declared left hd
  obtain ⟨tokens', rfl, htmp⟩ : ∃ tokens' : List Node, later = tokens'.map .ok ++ left ∧
      Temporaries tokens' (declared.filter fun node => !node.isLeaf).toList := by
    cases declared with
    | none => exact ⟨[], hd.symm, .absent⟩
    | some node =>
        obtain ⟨tokens', rfl, -, ht⟩ := hd
        exact ⟨tokens', rfl, ht⟩
  simp only [tokensIn_append, List.length_append] at hb
  refine (statements_reads hi (by omega) hl hl').bind ?_
  intro found last h
  cases found with
  | none =>
      obtain rfl : last = left := h
      refine .pure ⟨tokens ++ (tokens' ++ []), _, by simp, ?_, rfl⟩
      simpa using @BlockParts.mk tokens tokens' _ _ none hpar htmp (by simp)
  | some tree =>
      obtain ⟨words, rfl, -, ht⟩ := h
      refine .pure ⟨tokens ++ (tokens' ++ words), _, by simp, ?_, rfl⟩
      have hbody : ∀ piece ∈ some (Piece.mk words tree),
          Derivation .program piece.tokens piece.value := by
        simpa using ht
      simpa using BlockParts.mk hpar htmp hbody

theorem blockConstructor_reads (hi : Inner bound inner inner')
    (hb : (tokensIn view).length ≤ bound) (hl : bound < limit) (hl' : bound < limit') :
    Reads view (blockConstructor limit inner) (blockConstructor limit' inner')
      (Matched (Derivation .primary) view) := by
  unfold blockConstructor
  apply (accept_reads .leftSquareBracket view).bind
  intro found later h
  cases found with
  | none => exact .pure h
  | some opening =>
      obtain ⟨tokens, rfl, -, rfl, ho⟩ := h
      have hlt : (tokensIn later).length + 1 ≤ bound := hb
      refine (blockBody_reads (hi.mono hlt) (Nat.le_refl _) (by omega) (by omega)).bind ?_
      intro found left h
      cases found with
      | none => exact h.elim
      | some body =>
          obtain ⟨tokens, parts, rfl, hparts, rfl⟩ := h
          apply (expect_reads .rightSquareBracket _ left).bind
          rintro closing last ⟨rfl, hc⟩
          refine .pure ⟨opening :: (tokens ++ [closing]), by simp, by simp, ?_⟩
          rw [Option.getD_some, appendAll_bare_enclose rfl]
          cases hparts with
          | mk hpar htmp hbody => simpa using Derivation.block ho hpar htmp hbody hc

theorem parenthesised_reads (hi : Inner bound inner inner')
    (hb : (tokensIn view).length ≤ bound) :
    Reads view (parenthesised inner) (parenthesised inner')
      (Matched (Derivation .primary) view) := by
  unfold parenthesised
  apply (accept_reads .leftParenthesis view).bind
  intro found later h
  cases found with
  | none => exact .pure h
  | some opening =>
      obtain ⟨tokens, rfl, -, rfl, ho⟩ := h
      apply (hi later hb).bind
      intro found left h
      cases found with
      | none => exact missingExpression_reads opening
      | some tree =>
          obtain ⟨tokens, rfl, -, ht⟩ := h
          apply (expect_reads .rightParenthesis _ left).bind
          rintro closing last ⟨rfl, hc⟩
          have hd := Derivation.parenthesised ho ht hc
          exact .pure ⟨opening :: (tokens ++ [closing]), by simp, by simp, hd⟩

theorem primary_reads (hi : Inner bound inner inner')
    (hb : (tokensIn view).length ≤ bound) (hl : bound < limit) (hl' : bound < limit') :
    Reads view (primary limit inner) (primary limit' inner')
      (Matched (Derivation .primary) view) := by
  unfold primary
  apply (accept_reads .identifier view).bind
  intro found later h
  cases found with
  | none =>
      obtain rfl : later = view := h
      apply (literal_reads later).bind
      intro found left h
      cases found with
      | none =>
          obtain rfl : left = later := h
          apply (blockConstructor_reads hi hb hl hl').bind
          intro found last h
          cases found with
          | none =>
              obtain rfl : last = left := h
              exact parenthesised_reads hi hb
          | some block => exact .pure h
      | some value => exact .pure h
  | some name =>
      obtain ⟨tokens, rfl, hne, rfl, hn⟩ := h
      exact .pure ⟨[name], rfl, hne, .name hn⟩

end MiniSmalltalk.Grammar
