import MiniSmalltalk.Proofs.Grammar.Foresight
import MiniSmalltalk.Proofs.Session.Safety

/-! # Which fault is reported

A parse reads tokens as it goes, and tokenizing reads them all. Both meet the same first lexical
fault: a parse reports it, unless it has refused a token in front of it. -/

namespace MiniSmalltalk

open Grammar

/-! ### Tokens in front of a fault -/

theorem TokenStream.collect_eq_fault_iff {readings : List Reading} {tokens : List Node}
    {fault : LexicalFault} :
    collect readings = (tokens, some fault) ↔
      ∃ later, readings = tokens.map .ok ++ .error fault :: later := by
  induction readings generalizing tokens with
  | nil => simp [collect]
  | cons reading others ih =>
      cases reading with
      | error first => cases tokens <;> simp [collect]
      | ok token =>
          cases tokens with
          | nil => simp [collect]
          | cons head tail =>
              have htail := @ih tail
              rw [Prod.ext_iff] at htail
              simp [collect, Prod.ext_iff, ← htail, and_assoc]

theorem drain_eq_fault_iff {source : String} {tokens : List Node} {fault : LexicalFault} :
    (TokenStream.ofString source).drain = (tokens, some fault) ↔
      ∃ later, (TokenStream.ofString source).ahead = tokens.map .ok ++ .error fault :: later := by
  rw [TokenStream.drain_ofString]
  exact TokenStream.collect_eq_fault_iff

/-- Tokens in front of the first fault of a source are leaves and end before it. -/
theorem ahead_onward {source : String} {tokens : List Node} {fault : LexicalFault}
    {later : List Reading}
    (h : (TokenStream.ofString source).ahead = tokens.map .ok ++ .error fault :: later) :
    ∀ token ∈ tokens, token.isLeaf = true ∧ token.span.stop ≤ fault.span.start :=
  (@Cursor.readings_onward (.ofString source) _ _ _ h).2

/-! ### Parsing and tokenizing -/

theorem parse_of_parseProgram_error {source : String} {fault : SyntaxFault}
    (h : parseProgram source = .error fault) :
    ∃ behind, parse (.ofString source) = .error fault behind := by
  unfold parseProgram at h
  cases hr : parse (.ofString source) with
  | ok parsed behind => simp [hr] at h
  | error found behind =>
      rw [hr] at h
      cases h
      exact ⟨behind, rfl⟩

theorem parseProgram_of_parse_error {source : String} {fault : SyntaxFault} {behind : TokenStream}
    (h : parse (.ofString source) = .error fault behind) : parseProgram source = .error fault := by
  simp [parseProgram, h]

/-- A parse of a source with a lexical fault reports it or refuses a token in front of it. -/
theorem parseProgram_of_fault {source : String} {tokens : List Node} {inner : LexicalFault}
    (h : (TokenStream.ofString source).drain = (tokens, some inner)) :
    parseProgram source = .error ⟨.lexical inner, inner.span⟩ ∨
      ∃ cause, cause.AtToken ∧ ∃ token ∈ tokens, parseProgram source = .error ⟨cause, token.span⟩ ∧
        Refused tokens ⟨cause, token.span⟩ := by
  obtain ⟨later, hahead⟩ := drain_eq_fault_iff.mp h
  have hs := TokenStream.plain_ofString source
  rcases parse_of_fault hs hahead with ⟨behind, hparse⟩ | ⟨cause, hc, token, ht, hrefused⟩
  · exact .inl (parseProgram_of_parse_error hparse)
  · obtain ⟨behind, hparse⟩ := hrefused _ _ hs hahead
    exact .inr ⟨cause, hc, token, ht, parseProgram_of_parse_error hparse, hrefused⟩

theorem exists_drain_of_tokenize_error {source : String} {inner : LexicalFault}
    (h : tokenize source = .error inner) :
    ∃ tokens, (TokenStream.ofString source).drain = (tokens, some inner) := by
  obtain ⟨tokens, later, hahead⟩ := tokenize_eq_error_iff.mp h
  exact ⟨tokens, drain_eq_fault_iff.mpr ⟨later, hahead⟩⟩

theorem tokenize_of_lexical {source : String} {fault : SyntaxFault} {inner : LexicalFault}
    (h : parseProgram source = .error fault) (hc : fault.cause = .lexical inner) :
    tokenize source = .error inner ∧ fault.span = inner.span := by
  cases ht : tokenize source with
  | ok tokens =>
      obtain ⟨behind, hparse⟩ := parse_of_parseProgram_error h
      have hs := TokenStream.plain_ofString source
      exact absurd hc (parse_of_tokens hs (tokenize_eq_ok_iff.mp ht) hparse inner)
  | error first =>
      obtain ⟨tokens, hdrain⟩ := exists_drain_of_tokenize_error ht
      rcases parseProgram_of_fault hdrain with hfirst | ⟨cause, hcause, token, -, hrefused, -⟩
      · rw [h] at hfirst
        cases hfirst
        cases hc
        exact ⟨rfl, rfl⟩
      · rw [h] at hrefused
        cases hrefused
        cases hc
        cases hcause

theorem atToken_of_not_lexical {source : String} {fault : SyntaxFault} {inner : LexicalFault}
    (ht : tokenize source = .error inner) (h : parseProgram source = .error fault)
    (hc : ∀ other, fault.cause ≠ .lexical other) :
    fault.cause.AtToken ∧ fault.span.stop ≤ inner.span.start := by
  obtain ⟨tokens, hdrain⟩ := exists_drain_of_tokenize_error ht
  obtain ⟨later, hahead⟩ := drain_eq_fault_iff.mp hdrain
  rcases parseProgram_of_fault hdrain with hfirst | ⟨cause, hcause, token, hm, hrefused, -⟩
  · rw [h] at hfirst
    cases hfirst
    exact absurd rfl (hc inner)
  · rw [h] at hrefused
    cases hrefused
    exact ⟨hcause, (ahead_onward hahead token hm).2⟩

/-! ### Interpretation -/

theorem interpret_lexical_iff {depth : Nat} {file : SourceFile} {frame : FrameId}
    {machine : Machine} {inner : LexicalFault} :
    (interpret depth file frame machine).outcome = .failure ⟨file, .lexical inner⟩ ↔
      ∃ fault, parseProgram file.text = .error fault ∧ fault.cause = .lexical inner := by
  cases hp : parseProgram file.text with
  | ok parsed =>
      rw [interpret_of_parsed hp]
      generalize evaluate depth parsed.program (some frame) _ = result
      cases result with
      | ok value behind => simp [Interpretation.conclude]
      | error halt behind => cases halt <;> simp [Interpretation.conclude]
  | error fault =>
      unfold interpret
      rw [hp]
      obtain ⟨cause, span⟩ := fault
      cases cause <;> simp [FailureCause.ofSyntax]

/-- The first lexical fault of a source lies behind tokens that no fault is due to yet. -/
def ReachedFirst (source : String) (inner : LexicalFault) : Prop :=
  ∃ tokens, (TokenStream.ofString source).drain = (tokens, some inner) ∧
    ∀ fault, ¬ Refused tokens fault

theorem lexical_iff_reachedFirst {source : String} {inner : LexicalFault} :
    (∃ fault, parseProgram source = .error fault ∧ fault.cause = .lexical inner) ↔
      ReachedFirst source inner := by
  constructor
  · rintro ⟨fault, h, hc⟩
    obtain ⟨tokens, hdrain⟩ := exists_drain_of_tokenize_error (tokenize_of_lexical h hc).1
    obtain ⟨later, hahead⟩ := drain_eq_fault_iff.mp hdrain
    refine ⟨tokens, hdrain, ?_⟩
    intro refusal hrefused
    -- The same fault would be due where nothing but the tokens lies ahead.
    obtain ⟨behind, hparse⟩ := hrefused _ _ (TokenStream.plain_ofString source) hahead
    have hsame : fault = refusal := by
      have hagain := parseProgram_of_parse_error hparse
      rw [h] at hagain
      exact Except.error.inj hagain
    have hplain : (TokenStream.ofTokens tokens).Plain := fun token hm =>
      (ahead_onward hahead token hm).1
    have htokens := TokenStream.ahead_ofTokens tokens
    obtain ⟨last, hlast⟩ := hrefused _ [] hplain (by rw [htokens, List.append_nil])
    exact parse_of_tokens hplain htokens hlast inner (hsame ▸ hc)
  · rintro ⟨tokens, hdrain, hnone⟩
    rcases parseProgram_of_fault hdrain with hfirst | ⟨cause, -, token, -, -, hrefused⟩
    · exact ⟨_, hfirst, rfl⟩
    · exact absurd hrefused (hnone _)

/-- Parsing and tokenizing agree on lexical faults. What is parsed can be tokenized; a lexical
fault that a parse reports is the one of tokenizing; any other fault of a source that cannot be
tokenized lies with a token in front of it. So an interpretation reports a lexical fault exactly
if it is the first one and no token in front of it has been refused. -/
theorem lexical_faults_agree (source : String) :
    (∀ parsed, parseProgram source = .ok parsed → ∃ tokens, tokenize source = .ok tokens) ∧
    (∀ fault inner, parseProgram source = .error fault → fault.cause = .lexical inner →
      tokenize source = .error inner ∧ fault.span = inner.span) ∧
    (∀ fault inner, tokenize source = .error inner → parseProgram source = .error fault →
      (∀ other, fault.cause ≠ .lexical other) →
      fault.cause.AtToken ∧ fault.span.stop ≤ inner.span.start) ∧
    ∀ (depth : Nat) (path : String) (frame : FrameId) (machine : Machine) (inner : LexicalFault),
      (interpret depth ⟨path, source⟩ frame machine).outcome =
          .failure ⟨⟨path, source⟩, .lexical inner⟩ ↔
        ReachedFirst source inner := by
  refine ⟨?_, ?_, ?_, ?_⟩
  · intro parsed h
    obtain ⟨consumed, htokens, -⟩ := parseProgram_consumed h
    exact ⟨_, htokens⟩
  · exact fun _ _ h hc => tokenize_of_lexical h hc
  · exact fun _ _ ht h hc => atToken_of_not_lexical ht h hc
  · intro depth path frame machine inner
    rw [interpret_lexical_iff]
    exact lexical_iff_reachedFirst

/-- The sign is refused in front of a literal without end, and such a literal is reached if
nothing in front of it is refused. -/
theorem lexical_faults_agree_unterminated :
    (∃ parsed tokens, parseProgram "x" = .ok parsed ∧ tokenize "x" = .ok tokens) ∧
    (tokenize "x := ) 'a" = .error ⟨.unterminatedString, ⟨7, 9⟩, 1, 10⟩ ∧
      parseProgram "x := ) 'a" = .error ⟨.missingExpression "`:=`", ⟨2, 4⟩⟩ ∧
      (SyntaxCause.missingExpression "`:=`").AtToken ∧ 4 ≤ 7) ∧
    parseProgram "x := 'a" =
      .error ⟨.lexical ⟨.unterminatedString, ⟨5, 7⟩, 1, 8⟩, ⟨5, 7⟩⟩ ∧
    tokenize "x := 'a" = .error ⟨.unterminatedString, ⟨5, 7⟩, 1, 8⟩ ∧
    ReachedFirst "x := 'a" ⟨.unterminatedString, ⟨5, 7⟩, 1, 8⟩ := by
  have hparsed : (parseProgram "x").toOption.isSome = true := by decide +kernel
  have herror : ∀ {source : String} {fault : SyntaxFault},
      @Except.casesOn _ _ (fun _ => Option SyntaxFault) (parseProgram source) some (fun _ => none) =
        some fault → parseProgram source = .error fault := by
    intro source fault h
    cases hp : parseProgram source <;> simp_all
  have hrefused : parseProgram "x := ) 'a" = .error ⟨.missingExpression "`:=`", ⟨2, 4⟩⟩ :=
    herror (by decide +kernel)
  have hreached : parseProgram "x := 'a" =
      .error ⟨.lexical ⟨.unterminatedString, ⟨5, 7⟩, 1, 8⟩, ⟨5, 7⟩⟩ :=
    herror (by decide +kernel)
  have hreports : ∃ fault, parseProgram "x := 'a" = .error fault ∧
      fault.cause = .lexical ⟨.unterminatedString, ⟨5, 7⟩, 1, 8⟩ := ⟨_, hreached, rfl⟩
  refine ⟨?_, ⟨rfl, hrefused, ?_⟩, hreached, ?_, ?_⟩
  · cases hp : parseProgram "x" with
    | error fault => simp [hp, Except.toOption] at hparsed
    | ok parsed =>
        obtain ⟨tokens, htokens⟩ := (lexical_faults_agree "x").1 parsed hp
        exact ⟨parsed, tokens, rfl, htokens⟩
  · exact (lexical_faults_agree "x := ) 'a").2.2.1 _ ⟨.unterminatedString, ⟨7, 9⟩, 1, 10⟩ rfl
      hrefused (by simp)
  · exact ((lexical_faults_agree "x := 'a").2.1 _ _ hreached rfl).1
  · have houtcome := (@interpret_lexical_iff 0 ⟨"", "x := 'a"⟩ 0 .initial _).mpr hreports
    exact ((lexical_faults_agree "x := 'a").2.2.2 0 "" 0 .initial _).mp houtcome

end MiniSmalltalk
