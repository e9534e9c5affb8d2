import MiniSmalltalk.Proofs.Number.Literal
import MiniSmalltalk.Proofs.Session.Rendering
import MiniSmalltalk.Proofs.Token.Truncation

/-! # Integer literals

An integer literal is a run of digits or, with any gap in between, a sign and a run of digits. It
is read as one node with the sign in its text, and its value is exact up to the bounds of 64
bits. Both bounds hold for the signed value, so the least number has a literal although its
digits alone have none. -/

namespace MiniSmalltalk

open Grammar Token Number

/-- The characters of an integer literal, the text of its node and its value. -/
inductive IntegerLiteral : List Char → String → Int → Prop where
  | unsigned {digits : List Char} : IsNumeral digits →
      IntegerLiteral digits (String.ofList digits) (decimal digits)
  | negative {gap digits : List Char} : Gap gap → IsNumeral digits →
      IntegerLiteral ('-' :: (gap ++ digits)) ("-" ++ String.ofList digits) (-decimal digits)

def Node.literalAt (offset : Nat) (chars : List Char) (text : String) : Node :=
  .leaf .integer text ⟨offset, offset + byteLength chars⟩

/-! ### Reading a literal -/

theorem readings_digits {digits rest : List Char} (h : IsNumeral digits)
    (hr : ∀ c ∈ rest.head?, c.isDigit = false) (p : Position) :
    ∃ q : Position, q.offset = p.offset + byteLength digits ∧
      Cursor.readings ⟨digits ++ rest, p⟩ =
        .ok (.literalAt p.offset digits (String.ofList digits)) :: Cursor.readings ⟨rest, q⟩ := by
  obtain ⟨c, cs, rfl⟩ := List.exists_cons_of_ne_nil h.ne_nil
  obtain ⟨hc, hcs⟩ := List.forall_mem_cons.mp h.digit
  obtain ⟨⟨_, q⟩, rfl, hq, hscan⟩ := integer_finds hc hcs hr p
  exact ⟨q, hq, @Cursor.readings_of_token ⟨_, p⟩ _ _ _ hscan⟩

theorem readings_minus (p : Position) (rest : List Char) :
    ∃ q : Position, q.offset = p.offset + 1 ∧
      Cursor.readings ⟨'-' :: rest, p⟩ =
        .ok (.leaf .binary "-" ⟨p.offset, p.offset + 1⟩) :: Cursor.readings ⟨rest, q⟩ := by
  obtain ⟨⟨_, q⟩, rfl, hq, hscan⟩ := binary_finds (by decide : isBinary '-' = true) p rest
  exact ⟨q, hq, @Cursor.readings_of_token ⟨_, p⟩ _ _ _ hscan⟩

/-- A literal is read as one node wherever a primary is read, and derived as one. -/
structure ReadsAsPrimary (tokens : List Node) (node : Node) : Prop where
  derivation : Derivation .primary tokens node
  returns (limit : Nat) (inner : Production) (later : List Reading) :
    Returns (tokens.map .ok ++ later) (primary limit inner) (some node) later

/-- The sign and the digits together cover the literal. -/
theorem literalAt_negative (digits : List Char) {offset inner : Nat} {gap : List Char}
    (h : inner = offset + 1 + byteLength gap) :
    Node.literalAt offset ('-' :: (gap ++ digits)) ("-" ++ String.ofList digits) =
      ⟨.integer, some ("-" ++ (Node.literalAt inner digits (String.ofList digits)).textOrEmpty), [],
        Node.cover [.leaf .binary "-" ⟨offset, offset + 1⟩,
          .literalAt inner digits (String.ofList digits)]⟩ := by
  subst h
  have hsize : '-'.utf8Size = 1 := rfl
  simp only [Node.literalAt, Node.leaf, Node.cover, Node.textOrEmpty, Span.merge, List.foldl_cons,
    List.foldl_nil, byteLength_cons, byteLength_append, hsize, Option.getD_some]
  congr 2 <;> omega

theorem IntegerLiteral.readings {chars rest : List Char} {text : String} {value : Int}
    (h : IntegerLiteral chars text value) (hr : ∀ c ∈ rest.head?, c.isDigit = false)
    (p : Position) :
    ∃ (tokens : List Node) (q : Position), q.offset = p.offset + byteLength chars ∧
      Cursor.readings ⟨chars ++ rest, p⟩ = tokens.map .ok ++ Cursor.readings ⟨rest, q⟩ ∧
      ReadsAsPrimary tokens (.literalAt p.offset chars text) := by
  cases h with
  | unsigned hd =>
      obtain ⟨q, hq, hreadings⟩ := readings_digits hd hr p
      have hterminal : Terminal .integer (.literalAt p.offset chars (String.ofList chars)) :=
        ⟨rfl, rfl⟩
      refine ⟨[_], q, hq, hreadings, .integer hterminal, fun limit inner later => ?_⟩
      exact primary_returns_literal (hterminal.stops (by decide) later)
        (literal_returns_integer hterminal later)
  | @negative gap digits hg hd =>
      obtain ⟨q, hq, hminus⟩ := readings_minus p (gap ++ (digits ++ rest))
      obtain ⟨last, hlast, hdigits⟩ := readings_digits hd hr (q.advanceAll gap)
      have hinner : (q.advanceAll gap).offset = p.offset + 1 + byteLength gap := by
        rw [Position.advanceAll_offset, hq]
      have hselector : Selector "-" (.leaf .binary "-" ⟨p.offset, p.offset + 1⟩) :=
        ⟨⟨rfl, rfl⟩, rfl⟩
      have hterminal : Terminal .integer
          (.literalAt (q.advanceAll gap).offset digits (String.ofList digits)) := ⟨rfl, rfl⟩
      refine ⟨[.leaf .binary "-" ⟨p.offset, p.offset + 1⟩,
        .literalAt (q.advanceAll gap).offset digits (String.ofList digits)], last, ?_, ?_, ?_,
        fun limit inner later => ?_⟩
      · have hsize : '-'.utf8Size = 1 := rfl
        rw [hlast, hinner, byteLength_cons, byteLength_append, hsize]
        omega
      · rw [List.cons_append, List.append_assoc, hminus, Cursor.readings_gap hg, hdigits]
        rfl
      · rw [literalAt_negative digits hinner]
        exact .negative hselector hterminal
      · rw [literalAt_negative digits hinner]
        exact primary_returns_literal (hselector.stops (by decide) _)
          (literal_returns_negative hselector hterminal later)

/-! ### Its value -/

/-- What the evaluation of an integer literal comes to: the double nearest to its value if it fits
into 64 bits, and a fault with its text otherwise. -/
structure ExactResult (text : String) (value : Int) (span : Span) (machine : Machine)
    (result : EStateM.Result Halt Machine Value) : Prop where
  within : -2 ^ 63 ≤ value → value ≤ 2 ^ 63 - 1 →
    ∃ word : Int64, word.toInt = value ∧ result = .ok (.number word.toFloat) machine
  beyond : ¬ (-2 ^ 63 ≤ value ∧ value ≤ 2 ^ 63 - 1) →
    result = .error (.fault ⟨.invalidNumber text, span⟩) machine

theorem IntegerLiteral.integer? {chars : List Char} {text : String} {value : Int}
    (h : IntegerLiteral chars text value) : Number.integer? text = some value := by
  cases h with
  | unsigned hd => exact integer?_of_isNumeral hd
  | negative _ hd => exact integer?_negative hd

theorem IntegerLiteral.exact {chars : List Char} {text : String} {value : Int}
    (h : IntegerLiteral chars text value) (span : Span) (depth : Nat) (frame : FrameId)
    (machine : Machine) :
    ExactResult text value span machine
      (evalUpTo (depth + 1) (.leaf .integer text span) frame machine) := by
  have hstep : evalUpTo (depth + 1) (.leaf .integer text span) frame machine =
      (Evaluator.integer (.leaf .integer text span) : Eval Value) machine := rfl
  rw [hstep]
  constructor
  · intro hl hu
    obtain ⟨word, hword, hliteral⟩ := literal?_of_le h.integer? hl hu
    refine ⟨word, hword, ?_⟩
    simp [Evaluator.integer, Node.leaf, Node.textOrEmpty, hliteral, pure, EStateM.pure]
  · intro hn
    have hliteral := literal?_of_not_le h.integer? hn
    simp only [Evaluator.integer, Node.leaf, Node.textOrEmpty, Option.getD_some, hliteral]
    rfl

/-! ### Sources of nothing but a literal -/

theorem Token.Gap.head_not_digit {gap : List Char} (h : Gap gap) :
    ∀ c ∈ gap.head?, c.isDigit = false := by
  intro c hc
  have hne : gap ≠ [] := by
    rintro rfl
    cases hc
  refine isDigit_of_separator c (h.breaks hne [] c ?_)
  rwa [List.append_nil]

section

variable {chars gap behind : List Char} {text source : String} {value : Int}
  (h : IntegerLiteral chars text value) (hg : Gap gap) (hb : Gap behind)
  (hs : source.toList = gap ++ (chars ++ behind))

include h hg hb hs

theorem IntegerLiteral.parseProgram :
    parseProgram source =
      .ok ⟨some (.compose .expression [.literalAt (byteLength gap) chars text]), []⟩ := by
  obtain ⟨tokens, q, -, hreadings, hread⟩ :=
    h.readings hb.head_not_digit (Position.start.advanceAll gap)
  have hoffset : (Position.start.advanceAll gap).offset = byteLength gap := by
    rw [Position.advanceAll_offset]
    exact Nat.zero_add _
  rw [hb.readings, List.append_nil] at hreadings
  rw [hoffset] at hread
  have htokens : tokenize source = .ok tokens := by
    refine tokenize_eq_ok_iff.mpr ?_
    rw [ahead_ofString, hs, Cursor.readings_gap hg, hreadings]
  have hexpression := @Derivation.send _ _ none [] hread.derivation (by simp) (by simp)
  have hprogram := @Derivation.statements _ _ _ [] hexpression (by simp) .absent
  refine parseProgram_of_derivation htokens ?_
  simpa [Node.statementsOf] using hprogram

theorem IntegerLiteral.run_eq (depth : Nat) :
    run (depth + 2) source = .conclude ⟨"", source⟩ (evalUpTo (depth + 2)
      (.compose .expression [.literalAt (byteLength gap) chars text]) 0 .initial) :=
  @interpret_of_parsed ⟨"", source⟩ _ (h.parseProgram hg hb hs) (depth + 2) 0 .initial

end

/-- An expression of nothing but a literal comes to what the literal comes to. -/
theorem IntegerLiteral.exact_expression {chars : List Char} {text : String} {value : Int}
    (h : IntegerLiteral chars text value) (span : Span) (depth : Nat) (frame : FrameId)
    (machine : Machine) :
    ExactResult text value span machine (evalUpTo (depth + 2)
      (.compose .expression [.leaf .integer text span]) frame machine) := by
  have hexact := h.exact span depth frame machine
  rw [evalUpTo_expression rfl, Evaluator.expression_compose]
  constructor
  · intro hl hu
    obtain ⟨word, hword, hvalue⟩ := hexact.within hl hu
    refine ⟨word, hword, ?_⟩
    rw [Eval.bind_of_ok hvalue]
    rfl
  · intro hn
    rw [Eval.bind_of_error (hexact.beyond hn)]

/-- An integer literal is read as one node wherever it stands as a primary, with the sign in its
text and whatever gap lies behind the sign. Its value is exact if it fits into 64 bits, and it
fails with its text otherwise; so does a source of nothing but the literal. -/
theorem integer_literals_are_exact {chars gap : List Char} {text : String} {value : Int}
    (h : IntegerLiteral chars text value) (hg : Gap gap) :
    (∀ (rest : List Char) (p : Position) (s : TokenStream) (limit : Nat) (inner : Production),
      (∀ c ∈ rest.head?, c.isDigit = false) → s.Plain →
      s.ahead = Cursor.readings ⟨gap ++ (chars ++ rest), p⟩ →
      ∃ (behind : TokenStream) (q : Position),
        primary limit inner s =
          .ok (some (.literalAt (p.offset + byteLength gap) chars text)) behind ∧
        q.offset = p.offset + byteLength gap + byteLength chars ∧
        behind.ahead = Cursor.readings ⟨rest, q⟩) ∧
    (∀ (offset depth : Nat) (frame : FrameId) (machine : Machine),
      ExactResult text value ⟨offset, offset + byteLength chars⟩ machine
        (evalUpTo (depth + 1) (.literalAt offset chars text) frame machine)) ∧
    ∀ (source : String) (behind : List Char) (depth : Nat), Gap behind →
      source.toList = gap ++ (chars ++ behind) →
      (-2 ^ 63 ≤ value → value ≤ 2 ^ 63 - 1 → ∃ word : Int64, word.toInt = value ∧
        (run (depth + 2) source).outcome = .value (.number word.toFloat)) ∧
      (¬ (-2 ^ 63 ≤ value ∧ value ≤ 2 ^ 63 - 1) →
        (run (depth + 2) source).outcome =
          .failure ⟨⟨"", source⟩, .runtime ⟨.invalidNumber text,
            ⟨byteLength gap, byteLength gap + byteLength chars⟩⟩⟩) := by
  refine ⟨?_, fun offset depth frame machine => h.exact _ depth frame machine, ?_⟩
  · intro rest p s limit inner hr hs hv
    obtain ⟨tokens, q, hq, hreadings, hread⟩ := h.readings hr (p.advanceAll gap)
    rw [Cursor.readings_gap hg, hreadings] at hv
    obtain ⟨behind, hprimary, -, hbehind⟩ := hread.returns limit inner _ s hs hv
    rw [Position.advanceAll_offset] at hprimary hq
    exact ⟨behind, q, hprimary, hq, hbehind⟩
  · intro source behind depth hb hs
    rw [h.run_eq hg hb hs]
    have hexact := h.exact_expression ⟨byteLength gap, byteLength gap + byteLength chars⟩ depth 0
      .initial
    constructor
    · intro hl hu
      obtain ⟨word, hword, hvalue⟩ := hexact.within hl hu
      exact ⟨word, hword,
        congrArg (fun result => (Interpretation.conclude _ result).outcome) hvalue⟩
    · intro hn
      exact congrArg (fun result => (Interpretation.conclude _ result).outcome) (hexact.beyond hn)

/-- The least number has a literal, with zeros and a comment between its sign and its digits;
without a sign its digits have none. -/
theorem integer_literals_are_exact_least :
    (∃ word : Int64, word.toInt = -9223372036854775808 ∧
      (run 2 "- \"least\" 009223372036854775808").outcome = .value (.number word.toFloat)) ∧
    (run 2 "9223372036854775808").outcome =
      .failure ⟨⟨"", "9223372036854775808"⟩,
        .runtime ⟨.invalidNumber "9223372036854775808", ⟨0, 19⟩⟩⟩ := by
  have hzeros : IsNumeral "009223372036854775808".toList :=
    ⟨by decide, List.all_eq_true.mp (by decide)⟩
  have hdigits : IsNumeral "9223372036854775808".toList :=
    ⟨by decide, List.all_eq_true.mp (by decide)⟩
  have hgap : Gap " \"least\" ".toList :=
    .blank rfl (@Gap.comment "least".toList _ (by decide) (.blank rfl .nil))
  constructor
  · have hvalue : -(decimal "009223372036854775808".toList : Int) = -9223372036854775808 := by
      decide +kernel
    have hsource := (integer_literals_are_exact (.negative hgap hzeros) .nil).2.2
      "- \"least\" 009223372036854775808" [] 0 .nil (by decide)
    rw [hvalue] at hsource
    exact hsource.1 (by decide) (by decide)
  · have hvalue : (decimal "9223372036854775808".toList : Int) = 9223372036854775808 := by
      decide +kernel
    have hsource := (integer_literals_are_exact (.unsigned hdigits) .nil).2.2
      "9223372036854775808" [] 0 .nil (by decide)
    rw [hvalue] at hsource
    exact hsource.2 (by decide)

end MiniSmalltalk
