import MiniSmalltalk.Proofs.Grammar.Building

/-! # Soundness of tokens, literals and declarations

Every production takes tokens that derive from its phrase, with the tree it gives, or leaves
everything where it was. Bounds on repetition do not matter as long as they suffice for the
tokens ahead. -/

namespace MiniSmalltalk.Grammar

/-! ### Single tokens -/

def SingleToken (kind : Kind) (tokens : List Node) (token : Node) : Prop :=
  tokens = [token] ∧ Terminal kind token

theorem tokensOf_eq_values {pieces : List (Piece Node)}
    (h : ∀ piece ∈ pieces, piece.tokens = [piece.value]) :
    Piece.tokensOf pieces = Piece.values pieces := by
  induction pieces with
  | nil => rfl
  | cons piece pieces ih =>
      have hpiece := h piece (by simp)
      simp [hpiece, ih fun piece hm => h piece (by simp [hm])]

theorem terminal_of_mem_values {kind : Kind} {pieces : List (Piece Node)}
    (h : ∀ piece ∈ pieces, SingleToken kind piece.tokens piece.value) :
    ∀ token ∈ Piece.values pieces, Terminal kind token := by
  intro token hm
  obtain ⟨piece, hp, rfl⟩ := List.mem_map.mp hm
  exact (h piece hp).2

theorem terminal_of_isKind {kind : Kind} {token : Node} (hl : token.isLeaf = true)
    (h : isKind kind token = true) : Terminal kind token :=
  ⟨by simpa [isKind] using h, hl⟩

theorem selector_of_isBinary {text : String} {token : Node} (hl : token.isLeaf = true)
    (h : isBinary text token = true) : Selector text token := by
  simp only [isBinary, Bool.and_eq_true, beq_iff_eq] at h
  exact ⟨⟨h.1, hl⟩, h.2⟩

theorem accept_reads (kind : Kind) (view : List Reading) :
    Reads view (accept kind) (accept kind) (Matched (SingleToken kind) view) := by
  apply (acceptIf_reads (isKind kind) view).mono
  intro found later h
  cases found with
  | none => exact h.1
  | some token =>
      obtain ⟨rfl, hl, hk⟩ := h
      exact ⟨[token], rfl, by simp, rfl, terminal_of_isKind hl hk⟩

theorem acceptBinary_reads (text : String) (view : List Reading) :
    Reads view (acceptBinary text) (acceptBinary text)
      (Matched (fun tokens token => tokens = [token] ∧ Selector text token) view) := by
  apply (acceptIf_reads (isBinary text) view).mono
  intro found later h
  cases found with
  | none => exact h.1
  | some token =>
      obtain ⟨rfl, hl, ht⟩ := h
      exact ⟨[token], rfl, by simp, rfl, selector_of_isBinary hl ht⟩

theorem expect_reads (kind : Kind) (expected : String) (view : List Reading) :
    Reads view (expect kind expected) (expect kind expected) fun token later =>
      view = .ok token :: later ∧ Terminal kind token := by
  apply (expectIf_reads (isKind kind) expected view).mono
  rintro token later ⟨rfl, hl, hk⟩
  exact ⟨rfl, terminal_of_isKind hl hk⟩

theorem expectBinary_reads (text expected : String) (view : List Reading) :
    Reads view (expectBinary text expected) (expectBinary text expected) fun token later =>
      view = .ok token :: later ∧ Selector text token := by
  apply (expectIf_reads (isBinary text) expected view).mono
  rintro token later ⟨rfl, hl, ht⟩
  exact ⟨rfl, selector_of_isBinary hl ht⟩

/-! ### Literals -/

theorem numberLiteral_reads (view : List Reading) :
    Reads view numberLiteral numberLiteral (Matched (Derivation .primary) view) := by
  unfold numberLiteral
  apply (acceptBinary_reads "-" view).bind
  intro found later h
  cases found with
  | none =>
      obtain rfl : later = view := h
      apply (accept_reads .integer later).bind
      intro found left h
      cases found with
      | none =>
          obtain rfl : left = later := h
          exact (unread_none_returns left).reads.bind fun _ _ h => h.2 ▸ .pure rfl
      | some number =>
          obtain ⟨tokens, rfl, -, rfl, hn⟩ := h
          exact .pure ⟨[number], rfl, by simp, .integer hn⟩
  | some minus =>
      obtain ⟨tokens, rfl, -, rfl, hm⟩ := h
      apply (accept_reads .integer later).bind
      intro found left h
      cases found with
      | none =>
          obtain rfl : left = later := h
          exact (unread_returns hm.leaf left).bind_reads (.pure rfl)
      | some number =>
          obtain ⟨tokens, rfl, -, rfl, hn⟩ := h
          exact .pure ⟨[minus, number], rfl, by simp, negative_eq hn ▸ .negative hm hn⟩

theorem literal_reads (view : List Reading) :
    Reads view literal literal (Matched (Derivation .primary) view) := by
  unfold literal
  apply (numberLiteral_reads view).bind
  intro found later h
  cases found with
  | none =>
      obtain rfl : later = view := h
      apply (accept_reads .string later).mono
      intro found left h
      cases found with
      | none => exact h
      | some token =>
          obtain ⟨tokens, rfl, hne, rfl, ht⟩ := h
          exact ⟨[token], rfl, hne, .string ht⟩
  | some number => exact .pure h

/-! ### Declarations of a block -/

/-- Declared names that were read, where a node without children declares nothing. -/
def Declared (tokens : List Node) (node : Node) : Prop :=
  Temporaries tokens ((some node).filter fun node => !node.isLeaf).toList

theorem temporaries_reads {limit limit' : Nat} {view : List Reading}
    (hl : (tokensIn view).length < limit) (hl' : (tokensIn view).length < limit') :
    Reads view (temporaries limit) (temporaries limit') (Matched Declared view) := by
  unfold temporaries
  apply (acceptBinary_reads "|" view).bind
  intro found later h
  cases found with
  | none => exact .pure h
  | some opening =>
      obtain ⟨tokens, rfl, -, rfl, ho⟩ := h
      simp only [List.map_cons, List.map_nil, List.singleton_append, tokensIn_cons_ok,
        List.length_cons] at hl hl'
      refine (many_reads (fun view _ => accept_reads .identifier view) (Nat.le_refl _) (by omega)
        (by omega)).bind ?_
      rintro names left ⟨pieces, rest, rfl, rfl, rfl, hp⟩
      apply (expectBinary_reads "|" _ left).bind
      rintro closing last ⟨rfl, hc⟩
      refine .pure ⟨opening :: (Piece.tokensOf pieces ++ [closing]), by simp, by simp, ?_⟩
      rw [tokensOf_eq_values fun piece hm => (hp piece hm).1, Declared]
      by_cases hnil : pieces = []
      · subst hnil
        exact .none ho hc
      · have hv : Piece.values pieces ≠ [] := by simpa [Piece.values] using hnil
        rw [appendAll_bare_enclose rfl]
        have hleaf : (Node.enclose .temporaries opening closing (Piece.values pieces)).isLeaf =
            false := by
          simpa [Node.enclose, Node.isLeaf] using hv
        simp only [Option.filter_some, hleaf, Bool.not_false, if_true, Option.toList_some]
        exact .present hv ho (terminal_of_mem_values hp) hc

theorem blockArgument_reads (view : List Reading) :
    Reads view blockArgument blockArgument (Matched Parameter view) := by
  unfold blockArgument
  apply (accept_reads .colon view).bind
  intro found later h
  cases found with
  | none => exact .pure h
  | some colon =>
      obtain ⟨tokens, rfl, -, rfl, hc⟩ := h
      apply (expect_reads .identifier _ later).bind
      rintro name left ⟨rfl, hn⟩
      exact .pure ⟨[colon, name], rfl, by simp, .mk hc hn⟩

theorem blockArguments_reads {limit limit' : Nat} {view : List Reading}
    (hl : (tokensIn view).length < limit) (hl' : (tokensIn view).length < limit') :
    Reads view (blockArguments limit) (blockArguments limit')
      (Matched (fun tokens node => Parameters tokens [node]) view) := by
  unfold blockArguments
  apply (many_reads (fun view _ => blockArgument_reads view) (Nat.le_refl _) hl hl').bind
  rintro names later ⟨pieces, rest, rfl, rfl, rfl, hp⟩
  cases pieces with
  | nil => exact .pure rfl
  | cons piece pieces =>
      apply (expectBinary_reads "|" _ later).bind
      rintro bar left ⟨rfl, hb⟩
      refine .pure ⟨Piece.tokensOf (piece :: pieces) ++ [bar], by simp, by simp, ?_⟩
      rw [Node.appendAll_bare rfl _ (by simp [Piece.values])]
      exact .present (by simp) hp hb

end MiniSmalltalk.Grammar
