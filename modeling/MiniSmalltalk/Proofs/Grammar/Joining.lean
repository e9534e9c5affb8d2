import MiniSmalltalk.Proofs.Grammar.Parallel
import MiniSmalltalk.Proofs.Token.Separation

/-! # Joined sources

Two sources with a dot between them are one source: it has the tokens of both, and its program
has the statements of both. -/

namespace MiniSmalltalk

/-! ### Tokens -/

theorem Node.shift_placeless (bytes : Nat) (token : Node) :
    (token.shift bytes).placeless = token.placeless :=
  withSpan_placeless token _

open Token

theorem scan_dot {tail : List Char} (ht : Breaks tail) (p : Position) :
    ∃ dot behind, Grammar.Terminal .dot dot ∧ behind.rest = tail ∧
      scan ⟨'.' :: tail, p⟩ = .token dot none behind := by
  obtain ⟨behind, hrest, -, hscan⟩ := scan_finds (@Spelling.mark .dot '.' (by decide)) ht p
  exact ⟨_, behind, ⟨rfl, rfl⟩, hrest, hscan⟩

/-- The tokens of two sources and of the dot between them follow one another. -/
theorem tokenize_joined {first second : String} {tokens tokens' : List Node}
    (h : tokenize first = .ok tokens) (h' : tokenize second = .ok tokens') :
    ∃ dot bytes, Grammar.Terminal .dot dot ∧
      tokenize (first ++ " . " ++ second) = .ok (tokens ++ dot :: tokens'.map (.shift bytes)) := by
  have hblank : Gap [' '] := .blank rfl .nil
  have hsource : first ++ " . " ++ second = first ++ String.ofList [' '] ++ (". " ++ second) := by
    apply String.ext
    simp
  have hall := readings_separated hblank (by simp) first (". " ++ second)
  rw [← hsource, tokenize_eq_ok_iff.mp h] at hall
  obtain ⟨position, -, hahead⟩ := hall.tokens
  obtain ⟨dot, behind, hdot, hrest, hscan⟩ :=
    scan_dot (hblank.breaks (by simp) second.toList) (position.advanceAll [' '])
  have hsecond := @readings_behind_gap _ hblank second _ behind.position rfl
  rw [tokenize_eq_ok_iff.mp h', ← hrest] at hsecond
  obtain ⟨_, -, hlater⟩ := hsecond.tokens
  refine ⟨dot, behind.position.offset + byteLength [' '], hdot, tokenize_eq_ok_iff.mpr ?_⟩
  have htail : (". " ++ second).toList = '.' :: ([' '] ++ second.toList) := by simp
  rw [hahead, Node.shift_zero, List.map_id, Cursor.readings_gap hblank, htail,
    Cursor.readings_of_token hscan, hlater, Cursor.readings_of_rest_nil rfl]
  simp

namespace Grammar

/-! ### Statements -/

/-- Reads `expression ('.' expression)*` as the trees of the expressions. -/
inductive Listed : List Node → List Node → Prop where
  | mk {first : Node} {tokens : List Node} {others : List (Piece Node)} :
      Derivation .expression tokens first →
      (∀ piece ∈ others, Derivation .nextStatement piece.tokens piece.value) →
      Listed (tokens ++ Piece.tokensOf others) (first :: Piece.values others)

/-- A program that is not an answer is a list of statements and perhaps a dot. -/
theorem Derivation.listed {tokens : List Node} {tree : Node} (h : Derivation .program tokens tree)
    (hk : tree.kind ≠ .answer) :
    ∃ words parts last, Listed words parts ∧ Optionally .dot last ∧ tokens = words ++ last ∧
      tree = .statementsOf parts := by
  cases h with
  | answer hc _ _ => exact absurd hc.kind_eq hk
  | statements hd ho hl => exact ⟨_, _, _, .mk hd ho, hl, by simp, rfl⟩

namespace Listed

variable {tokens tokens' parts parts' last : List Node}

theorem parts_ne_nil (h : Listed tokens parts) : parts ≠ [] := by
  cases h
  simp

theorem program (h : Listed tokens parts) (hl : Optionally .dot last) :
    Derivation .program (tokens ++ last) (.statementsOf parts) := by
  cases h with
  | mk hd ho =>
      rw [List.append_assoc]
      exact .statements hd ho hl

theorem join {dot : Node} (h : Listed tokens parts) (hdot : Terminal .dot dot)
    (h' : Listed tokens' parts') : Listed (tokens ++ dot :: tokens') (parts ++ parts') := by
  cases h with
  | @mk first words others hd ho =>
      cases h' with
      | @mk first' words' others' hd' ho' =>
          have hall : ∀ piece ∈ others ++ ⟨dot :: words', first'⟩ :: others',
              Derivation .nextStatement piece.tokens piece.value := by
            intro piece hm
            rcases List.mem_append.mp hm with hm | hm
            · exact ho piece hm
            · rcases List.mem_cons.mp hm with rfl | hm
              · exact .nextStatement hdot hd'
              · exact ho' piece hm
          simpa [Piece.tokensOf, Piece.values] using Listed.mk hd hall

end Listed

theorem Optionally.eq_nil {kind : Kind} {words last : List Node} (h : Optionally kind last)
    (hlast : ∀ token ∈ (words ++ last).getLast?, token.kind ≠ kind) : last = [] := by
  cases h with
  | absent => rfl
  | present ht => exact absurd ht.kind_eq (hlast _ (by simp))

end Grammar

open Grammar

/-! ### Programs -/

theorem parseProgram_joined {first second : String} {tokens : List Node} {tree tree' : Node}
    (ht : tokenize first = .ok tokens) (hlast : ∀ token ∈ tokens.getLast?, token.kind ≠ .dot)
    (h : parseProgram first = .ok ⟨some tree, []⟩) (hk : tree.kind ≠ .answer)
    (h' : parseProgram second = .ok ⟨some tree', []⟩) (hk' : tree'.kind ≠ .answer) :
    ∃ parts parts', tree = .statementsOf parts ∧ parts' ≠ [] ∧
      (Node.statementsOf parts').placeless = tree'.placeless ∧
      parseProgram (first ++ " . " ++ second) =
        .ok ⟨some (.statementsOf (parts ++ parts')), []⟩ := by
  obtain ⟨consumed, hc, hd⟩ := parseProgram_consumed h
  obtain ⟨consumed', hc', hd'⟩ := parseProgram_consumed h'
  simp only [List.append_nil] at hc hc'
  obtain rfl : tokens = consumed := Except.ok.inj (ht.symm.trans hc)
  obtain ⟨words, parts, last, hl, ho, rfl, rfl⟩ := (hd tree rfl).listed hk
  obtain rfl := ho.eq_nil hlast
  rw [List.append_nil] at hc
  obtain ⟨dot, bytes, hdot, hjoined⟩ := tokenize_joined hc hc'
  -- The second program is derived from its tokens where they stand now.
  have halike : Alike consumed' (consumed'.map (.shift bytes)) := by
    simp [Alike, Function.comp_def, Node.shift_placeless]
  obtain ⟨moved, hmoved, hplaceless⟩ := (hd' tree' rfl).relaid _ halike
  have hkind : moved.kind ≠ .answer := (Node.same_of_placeless hplaceless).1 ▸ hk'
  obtain ⟨words', parts', last', hl', ho', hsplit, rfl⟩ := hmoved.listed hkind
  refine ⟨parts, parts', rfl, hl'.parts_ne_nil, hplaceless, ?_⟩
  rw [hsplit, ← List.cons_append, ← List.append_assoc] at hjoined
  exact parseProgram_of_derivation hjoined ((hl.join hdot hl').program ho')

end MiniSmalltalk
