import MiniSmalltalk.Proofs.Grammar.Completeness.Programs
import MiniSmalltalk.Proofs.Grammar.Contract

/-! # Parsing

A parse takes the longest program that its tokens begin with and keeps the others. Tokens
that derive from a program as a whole are parsed to the one tree they have. -/

namespace MiniSmalltalk

namespace Grammar

/-! ### The reader of programs -/

theorem enough_size (s : TokenStream) : Enough (s.size + 1) s.size s.ahead :=
  ⟨Nat.lt_succ_of_le s.length_tokensIn_ahead_le, s.length_tokensIn_ahead_le⟩

theorem program_reads (s : TokenStream) :
    Reads s.ahead (statements (s.size + 1) (expressionUpTo (s.size + 1)))
      (statements (s.size + 1) (expressionUpTo (s.size + 1)))
      (Matched (Derivation .program) s.ahead) := by
  have hi := inner_expressionOver (return none) (return none) (Nat.lt_succ_self s.size)
    (Nat.lt_succ_self s.size)
  rw [← expressionUpTo_eq] at hi
  exact statements_reads hi s.length_tokensIn_ahead_le (Nat.lt_succ_self _) (Nat.lt_succ_self _)

/-- The reader of programs is the same under every bound above the size of its stream. -/
theorem program_reader_eq {s : TokenStream} (hs : s.Plain) {limit : Nat} (h : s.size < limit) :
    Rule.program.reader s = statements limit (expressionUpTo limit) s := by
  rw [← Rule.readerWith_eq_reader .program hs (return none) h h, ← expressionUpTo_eq]
  rfl

theorem Reads.of_ok {α : Type} {view : List Reading} {reader reader' : Reader α}
    {post : α → List Reading → Prop} (h : Reads view reader reader' post) {s behind : TokenStream}
    {value : α} (hs : s.Plain) (hv : s.ahead = view) (hr : reader s = .ok value behind) :
    behind.Plain ∧ post value behind.ahead := by
  have hout := (h s hs hv).2
  rw [hr] at hout
  exact hout

/-! ### The tokens left over -/

theorem remaining_reads (view : List Reading) :
    Reads view remaining remaining fun tokens later => view = tokens.map .ok ∧ later = [] := by
  rintro s hs rfl
  have hread : ∀ view, (tokensIn view).length ≤ s.size → Reads view read read
      (Found (fun tokens token => tokens = [token]) (fun rest later => rest = [] ∧ later = [])
        view) := by
    intro view _
    apply (read_reads view).mono
    intro found later h
    cases found with
    | none => exact h
    | some token => exact ⟨[token], h.1, by simp, rfl⟩
  have hlt := Nat.lt_succ_of_le s.length_tokensIn_ahead_le
  have hmany := many_reads hread s.length_tokensIn_ahead_le hlt hlt
  refine hmany.mono ?_ s hs rfl
  rintro tokens later ⟨pieces, rest, hv, ⟨rfl, rfl⟩, rfl, hp⟩
  rw [tokensOf_eq_values hp, List.append_nil] at hv
  exact ⟨hv, rfl⟩

theorem remaining_returns (tokens : List Node) :
    Returns (tokens.map .ok) remaining tokens [] := by
  intro s hs hv
  have hread : ∀ piece ∈ singles tokens, ∀ later, Returns (piece.tokens.map .ok ++ later) read
      (some piece.value) later :=
    forall_mem_singles fun token _ later => read_returns_some token later
  have hlt := Nat.lt_succ_of_le s.length_tokensIn_ahead_le
  have hview : (Piece.tokensOf (singles tokens)).map .ok ++ [] = s.ahead := by
    rw [tokensOf_singles, List.append_nil, hv]
  have hmany := @many_returns _ read (singles tokens) (fun _ => True) _ (s.size + 1) [] []
    (fun piece hm later _ _ => hread piece hm later) (fun _ _ _ => trivial)
    (forall_mem_singles fun token _ => by simp) trivial read_returns_none (Nat.le_refl _)
    (hview ▸ hlt)
  rw [values_singles] at hmany
  exact hmany s hs hview.symm

/-! ### Longest programs -/

/-- A program, if there is one, is what `consumed` derives, and nothing longer in front of all
tokens derives from a program. If there is none, no token has been taken. -/
def Longest (consumed rest : List Node) : Option Node → Prop
  | some tree => Derivation .program consumed tree ∧
      ∀ longer other, longer <+: consumed ++ rest → Derivation .program longer other →
        longer.length ≤ consumed.length
  | none => consumed = [] ∧ ∀ longer other, longer <+: rest → ¬ Derivation .program longer other

/-- The reader of programs reaches the end of every program that lies ahead. -/
theorem program_reaches (s : TokenStream) {tokens : List Node} {tree : Node} {rest : List Reading}
    (h : Derivation .program tokens tree) (hv : s.ahead = tokens.map .ok ++ rest) :
    Reaches s.ahead (statements (s.size + 1) (expressionUpTo (s.size + 1))) rest := by
  have he := enough_size s
  rw [hv] at he ⊢
  exact h.completed.reaches he

theorem parseProgram_inv {source : String} {parsed : Parsed}
    (h : parseProgram source = .ok parsed) :
    ∃ middle behind, Rule.program.reader (.ofString source) = .ok parsed.program middle ∧
      remaining middle = .ok parsed.rest behind := by
  unfold parseProgram parse at h
  simp only [bind, EStateM.bind] at h
  cases hp : Rule.program.reader (.ofString source) with
  | error fault middle => simp [hp] at h
  | ok program middle =>
      cases hr : remaining middle with
      | error fault behind => simp [hp, hr] at h
      | ok rest behind =>
          simp only [hp, hr, Pure.pure, EStateM.pure, Except.ok.injEq] at h
          subst h
          exact ⟨middle, behind, rfl, hr⟩

/-- What a parse has taken from the front, and that the tokens it keeps are all that is left. -/
theorem parseProgram_matched {source : String} {parsed : Parsed}
    (h : parseProgram source = .ok parsed) :
    Matched (Derivation .program) (TokenStream.ofString source).ahead parsed.program
      (parsed.rest.map .ok) := by
  obtain ⟨middle, behind, hprogram, hrest⟩ := parseProgram_inv h
  have hs := TokenStream.plain_ofString source
  obtain ⟨hmiddle, hmatched⟩ := (program_reads (.ofString source)).of_ok hs rfl hprogram
  obtain ⟨-, hleft, -⟩ := (remaining_reads middle.ahead).of_ok hmiddle rfl hrest
  rwa [hleft] at hmatched

theorem parseProgram_of_some {source : String} {parsed : Parsed} {tree : Node}
    (h : parseProgram source = .ok parsed) (ht : parsed.program = some tree) :
    ∃ consumed, tokenize source = .ok (consumed ++ parsed.rest) ∧
      Derivation .program consumed tree := by
  have hmatched := parseProgram_matched h
  rw [ht] at hmatched
  obtain ⟨consumed, hahead, -, hd⟩ := hmatched
  rw [← List.map_append] at hahead
  exact ⟨consumed, tokenize_eq_ok_iff.mpr hahead, hd⟩

theorem parseProgram_of_none {source : String} {parsed : Parsed}
    (h : parseProgram source = .ok parsed) (ht : parsed.program = none) :
    tokenize source = .ok parsed.rest := by
  have hmatched := parseProgram_matched h
  rw [ht] at hmatched
  exact tokenize_eq_ok_iff.mpr hmatched.symm

/-- A parse splits the tokens of its source, and its program derives from those in front. -/
theorem parseProgram_consumed {source : String} {parsed : Parsed}
    (h : parseProgram source = .ok parsed) :
    ∃ consumed, tokenize source = .ok (consumed ++ parsed.rest) ∧
      ∀ tree ∈ parsed.program, Derivation .program consumed tree := by
  cases hfound : parsed.program with
  | some tree =>
      obtain ⟨consumed, htokens, hd⟩ := parseProgram_of_some h hfound
      refine ⟨consumed, htokens, ?_⟩
      rintro found ⟨⟩
      exact hd
  | none => exact ⟨[], parseProgram_of_none h hfound, by simp⟩

/-- Every program that is parsed has a derivation. -/
theorem parseProgram_derivation {source : String} {parsed : Parsed}
    (h : parseProgram source = .ok parsed) :
    ∀ tree ∈ parsed.program, ∃ tokens, Derivation .program tokens tree := by
  obtain ⟨consumed, -, hd⟩ := parseProgram_consumed h
  exact fun tree ht => ⟨consumed, hd tree ht⟩

end Grammar

open Grammar

/-- A parse splits the tokens of its source into the longest program in front and the rest. -/
theorem parseProgram_sound (source : String) (parsed : Parsed)
    (h : parseProgram source = .ok parsed) :
    ∃ consumed, tokenize source = .ok (consumed ++ parsed.rest) ∧
      Longest consumed parsed.rest parsed.program := by
  obtain ⟨middle, behind, hprogram, hrest⟩ := parseProgram_inv h
  have hs := TokenStream.plain_ofString source
  obtain ⟨hmiddle, hmatched⟩ := (program_reads (.ofString source)).of_ok hs rfl hprogram
  obtain ⟨-, hleft, -⟩ := (remaining_reads middle.ahead).of_ok hmiddle rfl hrest
  have hlongest : ∀ {front longer tail : List Node} {other : Node},
      (TokenStream.ofString source).ahead = (front ++ parsed.rest).map .ok →
      longer ++ tail = front ++ parsed.rest → Derivation .program longer other →
      longer.length ≤ front.length := by
    intro front longer tail other hahead hsplit hother
    have hv : (TokenStream.ofString source).ahead = longer.map .ok ++ tail.map .ok := by
      rw [hahead, ← hsplit, List.map_append]
    have hreach := ((program_reaches _ hother hv).of_ok hs rfl hprogram).2.length_le
    have hlength := congrArg List.length hsplit
    simp only [hleft, List.length_map, List.length_append] at hreach hlength
    omega
  cases hfound : parsed.program with
  | some tree =>
      rw [hfound] at hmatched
      obtain ⟨consumed, hahead, -, hd⟩ := hmatched
      rw [hleft, ← List.map_append] at hahead
      refine ⟨consumed, tokenize_eq_ok_iff.mpr hahead, hd, ?_⟩
      rintro longer other ⟨tail, hsplit⟩ hother
      exact hlongest hahead hsplit hother
  | none =>
      rw [hfound] at hmatched
      have hahead : (TokenStream.ofString source).ahead = ([] ++ parsed.rest).map .ok := by
        rw [List.nil_append, ← hleft]
        exact hmatched.symm
      refine ⟨[], tokenize_eq_ok_iff.mpr hahead, rfl, ?_⟩
      rintro longer other ⟨tail, hsplit⟩ hother
      have hle := hlongest hahead hsplit hother
      exact hother.tokens_ne_nil (List.length_eq_zero_iff.mp (Nat.le_zero.mp hle))

theorem parseProgram_sound_dangling_cascade :
    ∃ parsed, parseProgram "x foo ; ." = .ok parsed ∧ parsed.rest.length = 2 ∧
      ∃ consumed, tokenize "x foo ; ." = .ok (consumed ++ parsed.rest) ∧
        Longest consumed parsed.rest parsed.program := by
  have hlength : (parseProgram "x foo ; .").toOption.map (fun parsed => parsed.rest.length) =
      some 2 := by
    decide +kernel
  cases h : parseProgram "x foo ; ." with
  | error fault => simp [h, Except.toOption] at hlength
  | ok parsed =>
      simp only [h, Except.toOption, Option.map_some, Option.some.injEq] at hlength
      exact ⟨parsed, rfl, hlength, parseProgram_sound _ parsed h⟩

/-! ### The only tree -/

theorem program_returns (s : TokenStream) (hs : s.Plain) {tokens : List Node} {tree : Node}
    (h : Derivation .program tokens tree) (hv : s.ahead = tokens.map .ok) :
    ∃ behind, Rule.program.reader s = .ok (some tree) behind ∧ behind.Plain ∧
      behind.ahead = [] := by
  have hahead : s.ahead = tokens.map .ok ++ [] := by rw [hv, List.append_nil]
  have he := enough_size s
  rw [hahead] at he
  exact h.completed.returns he .atEnd s hs hahead

theorem parseProgram_of_derivation {source : String} {tokens : List Node} {tree : Node}
    (ht : tokenize source = .ok tokens) (h : Derivation .program tokens tree) :
    parseProgram source = .ok ⟨some tree, []⟩ := by
  have hs := TokenStream.plain_ofString source
  obtain ⟨middle, hprogram, hmiddle, hend⟩ :=
    program_returns _ hs h (tokenize_eq_ok_iff.mp ht)
  obtain ⟨behind, hrest, -, -⟩ := remaining_returns [] middle hmiddle hend
  simp [parseProgram, parse, bind, EStateM.bind, hprogram, hrest, pure, EStateM.pure]

/-- A source without tokens has no program. -/
theorem parseProgram_of_nil {source : String} (ht : tokenize source = .ok []) :
    parseProgram source = .ok ⟨none, []⟩ := by
  have hs := TokenStream.plain_ofString source
  have hprogram : Returns [] Rule.program.reader none [] := by
    intro s hs hv
    exact statements_returns_none .atEnd (expressionStep_returns_none .atEnd) s hs hv
  obtain ⟨middle, hr, hmiddle, hend⟩ := hprogram _ hs (tokenize_eq_ok_iff.mp ht)
  obtain ⟨behind, hrest, -, -⟩ := remaining_returns [] middle hmiddle hend
  simp [parseProgram, parse, bind, EStateM.bind, hr, hrest, pure, EStateM.pure]

/-- A stream in which only tokens given back are left. -/
def TokenStream.ofTokens (tokens : List Node) : TokenStream := ⟨.ofString "", none, tokens, false⟩

theorem TokenStream.ahead_ofTokens (tokens : List Node) :
    (ofTokens tokens).ahead = tokens.map .ok := by
  have hnil : (Cursor.ofString "").readings = [] := Cursor.readings_of_rest_nil rfl
  simp [ahead, scanned, ofTokens, hnil]

theorem Grammar.Derivation.unique {tokens : List Node} {tree other : Node}
    (h : Derivation .program tokens tree) (h' : Derivation .program tokens other) :
    tree = other := by
  have hs : (TokenStream.ofTokens tokens).Plain := h.leaves
  have hv := TokenStream.ahead_ofTokens tokens
  obtain ⟨behind, hr, -, -⟩ := program_returns _ hs h hv
  obtain ⟨behind', hr', -, -⟩ := program_returns _ hs h' hv
  rw [hr] at hr'
  cases hr'
  rfl

/-- The parser finds every program, and no tokens have two trees. -/
theorem parseProgram_complete :
    (∀ (source : String) (tokens : List Node) (tree : Node), tokenize source = .ok tokens →
      Derivation .program tokens tree → parseProgram source = .ok ⟨some tree, []⟩) ∧
    ∀ (tokens : List Node) (tree other : Node), Derivation .program tokens tree →
      Derivation .program tokens other → tree = other :=
  ⟨fun _ _ _ ht h => parseProgram_of_derivation ht h, fun _ _ _ h h' => h.unique h'⟩

theorem parseProgram_complete_assignment :
    ∃ tokens tree, tokenize "x := -3" = .ok tokens ∧ Derivation .program tokens tree ∧
      parseProgram "x := -3" = .ok ⟨some tree, []⟩ ∧
      ∀ other, Derivation .program tokens other → tree = other := by
  have ht : tokenize "x := -3" = .ok [.leaf .identifier "x" ⟨0, 1⟩, .bare .assignment ⟨2, 4⟩,
      .leaf .binary "-" ⟨5, 6⟩, .leaf .integer "3" ⟨6, 7⟩] :=
    rfl
  have hname : Terminal .identifier (.leaf .identifier "x" ⟨0, 1⟩) := ⟨rfl, rfl⟩
  have hsign : Terminal .assignment (.bare .assignment ⟨2, 4⟩) := ⟨rfl, rfl⟩
  have hminus : Selector "-" (.leaf .binary "-" ⟨5, 6⟩) := ⟨⟨rfl, rfl⟩, rfl⟩
  have hnumber : Terminal .integer (.leaf .integer "3" ⟨6, 7⟩) := ⟨rfl, rfl⟩
  have hvalue := @Derivation.send _ _ none [] (.negative hminus hnumber) (by simp) (by simp)
  have hassignment := Derivation.assignment hname hsign hvalue
  have hprogram := @Derivation.statements _ _ _ [] hassignment (by simp) .absent
  exact ⟨_, _, ht, hprogram, parseProgram_complete.1 _ _ _ ht hprogram,
    fun other => parseProgram_complete.2 _ _ other hprogram⟩

end MiniSmalltalk
