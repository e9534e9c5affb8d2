import MiniSmalltalk.Proofs.Grammar.Parsing
import MiniSmalltalk.Proofs.Token.Onward

/-! # Reading without foresight

Two streams that begin with the same tokens are read alike until a reader asks for what follows
them. A production that has not asked by then gives the same value from both streams or refuses
the same token. One that asks and finds a lexical fault reports that fault and no other. -/

namespace MiniSmalltalk

inductive SyntaxCause.AtToken : SyntaxCause → Prop where
  | unexpectedToken (expected found : String) : AtToken (.unexpectedToken expected found)
  | missingExpression (after : String) : AtToken (.missingExpression after)

namespace Grammar

variable {α β : Type}

/-! ### Views that part -/

/-- Two views that part behind some tokens. In the first one they are followed by a fault, or
nothing follows them in either. The first one is of a source that ends at an offset. -/
structure Fork where
  stop : Nat
  tokens : List Node
  later : List Reading
  later' : List Reading
  parts : (later = [] ∧ later' = []) ∨ ∃ fault rest, later = .error fault :: rest

namespace Fork

variable (fork : Fork)

/-- Tokens of a fork lie ahead of two streams, and behind them the streams part. -/
def Shared (s s' : TokenStream) : Prop :=
  s.Plain ∧ s'.Plain ∧ s.stop = fork.stop ∧ ∃ front ⊆ fork.tokens,
    s.ahead = front.map .ok ++ fork.later ∧ s'.ahead = front.map .ok ++ fork.later'

/-- What a reader comes to on both sides of a fork. Only where it has asked for what follows the
tokens does the second side not matter. -/
inductive Agrees (post : α → Prop) : EStateM.Result SyntaxFault TokenStream α →
    EStateM.Result SyntaxFault TokenStream α → Prop where
  | ok {value : α} {behind behind' : TokenStream} : post value → fork.Shared behind behind' →
      Agrees post (.ok value behind) (.ok value behind')
  | refused {cause : SyntaxCause} {token : Node} {behind behind' : TokenStream} :
      token ∈ fork.tokens → cause.AtToken →
      Agrees post (.error ⟨cause, token.span⟩ behind) (.error ⟨cause, token.span⟩ behind')
  | ended {expected : String} {behind : TokenStream}
      {result' : EStateM.Result SyntaxFault TokenStream α} : fork.later = [] →
      Agrees post (.error ⟨.unexpectedEnd expected, .point fork.stop⟩ behind) result'
  | stopped {fault : LexicalFault} {rest : List Reading} {behind : TokenStream}
      {result' : EStateM.Result SyntaxFault TokenStream α} : fork.later = .error fault :: rest →
      Agrees post (.error ⟨.lexical fault, fault.span⟩ behind) result'

variable {fork} in
/-- A reader that refuses a token has not asked for what follows. -/
theorem Agrees.refuses {post : α → Prop} {fault : SyntaxFault} {behind : TokenStream}
    {result' : EStateM.Result SyntaxFault TokenStream α}
    (h : fork.Agrees post (.error fault behind) result') (hc : fault.cause.AtToken) :
    ∃ behind', result' = .error fault behind' := by
  cases h with
  | @refused _ _ _ behind' => exact ⟨behind', rfl⟩
  | ended => cases hc
  | stopped => cases hc

/-- A reader that agrees on both sides wherever tokens of a fork lie ahead. -/
def Follows (post : α → Prop) (reader : Reader α) : Prop :=
  ∀ s s', fork.Shared s s' → fork.Agrees post (reader s) (reader s')

/-- A production whose value is not looked at. -/
abbrev Blind (reader : Reader α) : Prop := fork.Follows (fun _ => True) reader

/-- A token of a fork, which may be given back. -/
def Token (token : Node) : Prop := token ∈ fork.tokens ∧ token.isLeaf = true

def Taken (found : Option Node) : Prop := ∀ token ∈ found, fork.Token token

variable {fork}

namespace Follows

variable {post : α → Prop} {final : β → Prop} {reader : Reader α}

theorem pure {value : α} (h : post value) : fork.Follows post (Pure.pure value) :=
  fun _ _ hs => .ok h hs

theorem refuse {cause : SyntaxCause} {token : Node} (ht : fork.Token token) (hc : cause.AtToken) :
    fork.Follows post (throw ⟨cause, token.span⟩) :=
  fun _ _ _ => .refused ht.1 hc

theorem bind {next : α → Reader β} (h : fork.Follows post reader)
    (hn : ∀ value, post value → fork.Follows final (next value)) :
    fork.Follows final (reader >>= next) := by
  intro s s' hs
  have hfirst := h s s' hs
  simp only [Bind.bind, EStateM.bind]
  generalize reader s = result, reader s' = result' at hfirst
  cases hfirst with
  | ok hvalue hbehind => exact hn _ hvalue _ _ hbehind
  | refused ht hc => exact .refused ht hc
  | ended hl => exact .ended hl
  | stopped hl => exact .stopped hl

/-- A reader that may find nothing is followed by one of two readers. -/
theorem bindOption {reader : Reader (Option α)} {next : Option α → Reader β}
    (h : fork.Blind reader) (hnone : fork.Follows final (next none))
    (hsome : ∀ value, fork.Follows final (next (some value))) :
    fork.Follows final (reader >>= next) := by
  refine h.bind fun found _ => ?_
  cases found with
  | none => exact hnone
  | some value => exact hsome value

/-- The token that may have been found is followed by one of two readers. -/
theorem bindToken {reader : Production} {next : Option Node → Reader β}
    (h : fork.Follows fork.Taken reader) (hnone : fork.Follows final (next none))
    (hsome : ∀ token, fork.Token token → fork.Follows final (next (some token))) :
    fork.Follows final (reader >>= next) := by
  refine h.bind fun found hfound => ?_
  cases found with
  | none => exact hnone
  | some token => exact hsome token (hfound token rfl)

theorem blind (h : fork.Follows post reader) : fork.Blind reader := by
  intro s s' hs
  have hout := h s s' hs
  generalize reader s = result, reader s' = result' at hout
  cases hout with
  | ok _ hbehind => exact .ok trivial hbehind
  | refused ht hc => exact .refused ht hc
  | ended hl => exact .ended hl
  | stopped hl => exact .stopped hl

end Follows

end Fork

open Fork

variable {fork : Fork}

/-! ### Tokens -/

theorem read_of_fault {s : TokenStream} (hs : s.Plain) {fault : LexicalFault}
    {later : List Reading} (hv : s.ahead = .error fault :: later) :
    ∃ behind, read s = .error ⟨.lexical fault, fault.span⟩ behind := by
  have h := TokenStream.read_spec hs
  unfold read lift
  cases hr : TokenStream.read s with
  | ok found behind =>
      rw [hr] at h
      cases found with
      | none => simp [h.1] at hv
      | some token => simp [h.1] at hv
  | error first behind =>
      rw [hr] at h
      obtain ⟨others, hfirst⟩ := h.fault_first
      rw [hv] at hfirst
      cases hfirst
      have hcause := h.2.2
      exact ⟨behind, by simp only [SyntaxFault.ofLexical]⟩

theorem read_stop {s behind : TokenStream} {found : Option Node} (h : read s = .ok found behind) :
    behind.stop = s.stop ∧ (found = none → behind.offset = s.stop) := by
  unfold read lift at h
  split at h
  · rename_i hread
    cases h
    exact TokenStream.read_stop hread
  · cases h

/-- Nothing is found only where nothing follows the tokens of a fork. -/
theorem read_follows :
    fork.Follows (fun found => fork.Taken found ∧ (found = none → fork.later = [])) read := by
  rintro s s' ⟨hs, hs', hstop, front, hfront, hv, hv'⟩
  cases front with
  | cons token front =>
      obtain ⟨behind, hr, hb, hba⟩ := read_returns_some token _ s hs hv
      obtain ⟨behind', hr', hb', hba'⟩ := read_returns_some token _ s' hs' hv'
      rw [hr, hr']
      obtain ⟨htoken, hothers⟩ := List.cons_subset.mp hfront
      have hleaf := ((read_reads _).of_ok hs hv hr).2.2
      refine .ok ⟨?_, by simp⟩ ⟨hb, hb', (read_stop hr).1.trans hstop, front, hothers, hba, hba'⟩
      rintro _ ⟨⟩
      exact ⟨htoken, hleaf⟩
  | nil =>
      rcases fork.parts with ⟨hnil, hnil'⟩ | ⟨fault, rest, hfault⟩
      · obtain ⟨behind, hr, hb, hba⟩ := read_returns_none s hs (hv.trans hnil)
        obtain ⟨behind', hr', hb', hba'⟩ := read_returns_none s' hs' (hv'.trans hnil')
        rw [hr, hr']
        refine .ok ⟨by simp [Taken], fun _ => hnil⟩
          ⟨hb, hb', (read_stop hr).1.trans hstop, [], hfront, ?_, ?_⟩
        · simp [hba, hnil]
        · simp [hba', hnil']
      · obtain ⟨behind, hr⟩ := read_of_fault hs (hv.trans hfault)
        rw [hr]
        exact .stopped hfault

/-- Where nothing is found, the first stream stands at the end of its source. -/
theorem bindRead {final : β → Prop} {next : Option Node → Reader β}
    (hnone : ∀ s s', s.offset = fork.stop → fork.later = [] →
      fork.Agrees final (next none s) (next none s'))
    (hsome : ∀ token, fork.Token token → fork.Follows final (next (some token))) :
    fork.Follows final (read >>= next) := by
  intro s s' hs
  have hread := read_follows s s' hs
  have hoffset : ∀ behind, read s = .ok none behind → behind.offset = fork.stop :=
    fun behind hr => ((read_stop hr).2 rfl).trans hs.2.2.1
  simp only [Bind.bind, EStateM.bind]
  generalize read s = result, read s' = result' at hread hoffset
  cases hread with
  | @ok found behind _ hfound hbehind =>
      cases found with
      | none => exact hnone _ _ (hoffset behind rfl) (hfound.2 rfl)
      | some token => exact hsome token (hfound.1 token rfl) _ _ hbehind
  | refused ht hc => exact .refused ht hc
  | ended hl => exact .ended hl
  | stopped hl => exact .stopped hl

theorem unread_stop {s behind : TokenStream} {token : Option Node}
    (h : unread token s = .ok () behind) : behind.stop = s.stop := by
  unfold unread lift at h
  cases token with
  | none =>
      cases h
      rfl
  | some token =>
      by_cases hleaf : token.isLeaf = true
      · rw [TokenStream.unread_some_of_isLeaf hleaf] at h
        cases h
        rfl
      · rw [TokenStream.unread_some_of_not_isLeaf (by simpa using hleaf)] at h
        cases h

theorem unread_follows {found : Option Node} (h : fork.Taken found) :
    fork.Blind (unread found) := by
  cases found with
  | none => exact fun _ _ hs => .ok trivial hs
  | some token =>
      obtain ⟨htoken, hleaf⟩ := h token rfl
      rintro s s' ⟨hs, hs', hstop, front, hfront, hv, hv'⟩
      obtain ⟨behind, hr, hb, hba⟩ := unread_returns hleaf _ s hs hv
      obtain ⟨behind', hr', hb', hba'⟩ := unread_returns hleaf _ s' hs' hv'
      rw [hr, hr']
      refine .ok trivial ⟨hb, hb', (unread_stop hr).trans hstop, token :: front, ?_, hba, hba'⟩
      exact List.cons_subset.mpr ⟨htoken, hfront⟩

theorem unread_some_follows {token : Node} (h : fork.Token token) :
    fork.Blind (unread (some token)) := by
  apply unread_follows
  rintro _ ⟨⟩
  exact h

theorem acceptIf_follows (test : Node → Bool) : fork.Follows fork.Taken (acceptIf test) := by
  refine read_follows.bind fun found hfound => ?_
  cases found with
  | none => exact .pure hfound.1
  | some token =>
      have ht := hfound.1 token rfl
      by_cases hp : test token = true
      · simp only [hp, if_true]
        exact .pure hfound.1
      · simp only [hp, Bool.false_eq_true, if_false]
        exact (unread_some_follows ht).bind fun _ _ => .pure (by simp [Taken])

theorem expectIf_follows (test : Node → Bool) (expected : String) :
    fork.Blind (expectIf test expected) := by
  refine bindRead (fun s s' hoffset hnil => ?_) fun token ht => ?_
  · have hended : (.error ⟨.unexpectedEnd expected, .point s.offset⟩ s :
        EStateM.Result SyntaxFault TokenStream Node) =
        .error ⟨.unexpectedEnd expected, .point fork.stop⟩ s := by rw [hoffset]
    change fork.Agrees _ (.error ⟨.unexpectedEnd expected, .point s.offset⟩ s) _
    rw [hended]
    exact .ended hnil
  · by_cases hp : test token = true
    · simp only [hp, if_true]
      exact .pure trivial
    · simp only [hp, Bool.false_eq_true, if_false]
      exact (unread_some_follows ht).bind fun _ _ => .refuse ht (.unexpectedToken _ _)

theorem missingExpression_follows {post : α → Prop} {after : Node} (h : fork.Token after) :
    fork.Follows post (missingExpression after) :=
  .refuse h (.missingExpression _)

theorem followedBy_follows (kind : Kind) {rest : Reader (Option α)} (h : fork.Blind rest)
    (join : Node → α → β) : fork.Blind (followedBy kind rest join) := by
  refine (acceptIf_follows _).bindToken (.pure trivial) fun token ht => ?_
  refine h.bindOption ?_ fun _ => .pure trivial
  exact (unread_some_follows ht).bind fun _ _ => .pure trivial

theorem many_follows {item : Reader (Option α)} (h : fork.Blind item) (limit : Nat) :
    fork.Blind (many item limit) := by
  induction limit with
  | zero => exact .pure trivial
  | succ limit ih =>
      refine h.bindOption (.pure trivial) fun _ => ?_
      exact ih.bind fun _ _ => .pure trivial

/-! ### Productions -/

theorem accept_follows (kind : Kind) : fork.Follows fork.Taken (accept kind) :=
  acceptIf_follows _

theorem acceptBinary_follows (text : String) : fork.Follows fork.Taken (acceptBinary text) :=
  acceptIf_follows _

theorem numberLiteral_follows : fork.Blind numberLiteral := by
  refine (acceptBinary_follows "-").bind fun minus hminus => ?_
  refine (accept_follows .integer).blind.bindOption ?_ fun number => ?_
  · exact (unread_follows hminus).bind fun _ _ => .pure trivial
  · cases minus <;> exact .pure trivial

theorem literal_follows : fork.Blind literal :=
  numberLiteral_follows.bindOption (accept_follows .string).blind fun _ => .pure trivial

theorem temporaries_follows (limit : Nat) : fork.Blind (temporaries limit) := by
  refine (acceptBinary_follows "|").bindToken (.pure trivial) fun _ _ => ?_
  refine (many_follows (accept_follows .identifier).blind limit).bind fun _ _ => ?_
  exact (expectIf_follows _ _).bind fun _ _ => .pure trivial

theorem blockArgument_follows : fork.Blind blockArgument := by
  refine (accept_follows .colon).bindToken (.pure trivial) fun _ _ => ?_
  exact (expectIf_follows _ _).bind fun _ _ => .pure trivial

theorem blockArguments_follows (limit : Nat) : fork.Blind (blockArguments limit) := by
  refine (many_follows blockArgument_follows limit).bind fun names _ => ?_
  cases names with
  | nil => exact .pure trivial
  | cons => exact (expectIf_follows _ _).bind fun _ _ => .pure trivial

section

variable {inner : Production} (h : fork.Blind inner) (limit : Nat)

include h

theorem returnStatement_follows : fork.Blind (returnStatement inner) := by
  refine (accept_follows .answer).bindToken (.pure trivial) fun caret hcaret => ?_
  exact h.bindOption (missingExpression_follows hcaret) fun _ => .pure trivial

theorem nextStatement_follows : fork.Blind (nextStatement inner) :=
  (accept_follows .dot).bindToken (.pure trivial) fun _ _ => h

theorem statements_follows : fork.Blind (statements limit inner) := by
  refine (returnStatement_follows h).bindOption
    (h.bindOption (.pure trivial) fun _ => ?_) fun _ => ?_
  · exact (many_follows (nextStatement_follows h) limit).bind fun _ _ => .pure trivial
  · exact (accept_follows .dot).bind fun _ _ => .pure trivial

theorem blockBody_follows : fork.Blind (blockBody limit inner) := by
  refine (blockArguments_follows limit).bind fun _ _ => ?_
  refine (temporaries_follows limit).bind fun _ _ => ?_
  exact (statements_follows h limit).bind fun _ _ => .pure trivial

theorem blockConstructor_follows : fork.Blind (blockConstructor limit inner) := by
  refine (accept_follows .leftSquareBracket).bindToken (.pure trivial) fun _ _ => ?_
  refine (blockBody_follows h limit).bind fun _ _ => ?_
  exact (expectIf_follows _ _).bind fun _ _ => .pure trivial

theorem parenthesised_follows : fork.Blind (parenthesised inner) := by
  refine (accept_follows .leftParenthesis).bindToken (.pure trivial) fun opening hopening => ?_
  refine h.bindOption (missingExpression_follows hopening) fun _ => ?_
  exact (expectIf_follows _ _).bind fun _ _ => .pure trivial

theorem primary_follows : fork.Blind (primary limit inner) := by
  refine (accept_follows .identifier).blind.bindOption ?_ fun _ => .pure trivial
  refine literal_follows.bindOption ?_ fun _ => .pure trivial
  exact (blockConstructor_follows h limit).bindOption (parenthesised_follows h) fun _ =>
    .pure trivial

theorem binaryMessage_follows : fork.Blind (binaryMessage limit inner) :=
  followedBy_follows .binary (primary_follows h limit) _

theorem keywordSegment_follows : fork.Blind (keywordSegment limit inner) :=
  followedBy_follows .keyword (primary_follows h limit) _

theorem keywordMessage_follows : fork.Blind (keywordMessage limit inner) := by
  refine (keywordSegment_follows h limit).bindOption (.pure trivial) fun _ => ?_
  exact (many_follows (keywordSegment_follows h limit) limit).bind fun _ _ => .pure trivial

theorem messages_follows : fork.Blind (messages limit inner) := by
  refine (many_follows (accept_follows .identifier).blind limit).bind fun unary _ => ?_
  refine (many_follows (binaryMessage_follows h limit) limit).bind fun binary _ => ?_
  refine (keywordMessage_follows h limit).bind fun last _ => ?_
  cases unary ++ binary ++ last.toList <;> exact .pure trivial

theorem cascade_follows : fork.Blind (cascade limit inner) :=
  followedBy_follows .semicolon (messages_follows h limit) _

theorem basicExpression_follows : fork.Blind (basicExpression limit inner) := by
  refine (primary_follows h limit).bindOption (.pure trivial) fun _ => ?_
  refine (messages_follows h limit).bind fun _ _ => ?_
  exact (many_follows (cascade_follows h limit) limit).bind fun _ _ => .pure trivial

theorem assignment_follows : fork.Blind (assignment inner) := by
  refine (accept_follows .identifier).bindToken (.pure trivial) fun name hname => ?_
  refine (accept_follows .assignment).bindToken ?_ fun sign hsign => ?_
  · exact (unread_some_follows hname).bind fun _ _ => .pure trivial
  · exact h.bindOption (missingExpression_follows hsign) fun _ => .pure trivial

theorem expressionStep_follows : fork.Blind (expressionStep limit inner) :=
  (assignment_follows h).bindOption (basicExpression_follows h limit) fun _ => .pure trivial

end

theorem expressionUpTo_follows (limit : Nat) : fork.Blind (expressionUpTo limit) := by
  induction limit with
  | zero => exact .pure trivial
  | succ limit ih => exact expressionStep_follows ih (limit + 1)

/-! ### Programs -/

/-- The readers of programs get a bound from their streams, which may differ in size. -/
theorem program_follows : fork.Blind Rule.program.reader := by
  intro s s' hs
  let limit := s.size + s'.size + 1
  have hlt : s.size < limit := by omega
  have hlt' : s'.size < limit := by omega
  rw [program_reader_eq hs.1 hlt, program_reader_eq hs.2.1 hlt']
  exact statements_follows (expressionUpTo_follows limit) limit s s' hs

/-- The tokens left over are read up to the first fault. -/
theorem many_read_of_fault {s : TokenStream} (hs : s.Plain) {tokens : List Node}
    {fault : LexicalFault} {later : List Reading} {limit : Nat}
    (hv : s.ahead = tokens.map .ok ++ .error fault :: later) (hl : tokens.length < limit) :
    ∃ behind, many read limit s = .error ⟨.lexical fault, fault.span⟩ behind := by
  induction tokens generalizing s limit with
  | nil =>
      obtain ⟨limit, rfl⟩ := Nat.exists_eq_add_of_lt hl
      obtain ⟨behind, hr⟩ := read_of_fault hs hv
      exact ⟨behind, by simp [many, bind, EStateM.bind, hr]⟩
  | cons token tokens ih =>
      obtain ⟨limit, rfl⟩ := Nat.exists_eq_add_of_lt (Nat.zero_lt_of_lt hl)
      obtain ⟨middle, hr, hm, hma⟩ := read_returns_some token _ s hs hv
      obtain ⟨behind, hrest⟩ := @ih middle hm limit hma (by simp at hl; omega)
      exact ⟨behind, by simp [many, bind, EStateM.bind, hr, hrest]⟩

theorem remaining_of_fault {s : TokenStream} (hs : s.Plain) {tokens : List Node}
    {fault : LexicalFault} {later : List Reading}
    (hv : s.ahead = tokens.map .ok ++ .error fault :: later) :
    ∃ behind, remaining s = .error ⟨.lexical fault, fault.span⟩ behind := by
  apply many_read_of_fault hs hv
  have hsize := s.length_tokensIn_ahead_le
  simp only [hv, tokensIn_append, List.length_append] at hsize
  omega

/-- Tokens that no program begins with: whatever follows them, the parser gives up with the same
fault. -/
def Refused (tokens : List Node) (fault : SyntaxFault) : Prop :=
  ∀ (s : TokenStream) (later : List Reading), s.Plain → s.ahead = tokens.map .ok ++ later →
    ∃ behind, parse s = .error fault behind

theorem parse_of_program_error {s behind : TokenStream} {fault : SyntaxFault}
    (h : Rule.program.reader s = .error fault behind) : parse s = .error fault behind := by
  simp [parse, bind, EStateM.bind, h]

/-- The fault behind some tokens is reported, or one of the tokens is refused already. -/
theorem parse_of_fault {s : TokenStream} (hs : s.Plain) {tokens : List Node}
    {fault : LexicalFault} {later : List Reading}
    (hv : s.ahead = tokens.map .ok ++ .error fault :: later) :
    (∃ behind, parse s = .error ⟨.lexical fault, fault.span⟩ behind) ∨
      ∃ cause, cause.AtToken ∧ ∃ token ∈ tokens, Refused tokens ⟨cause, token.span⟩ := by
  let fork (later' : List Reading) : Fork :=
    ⟨s.stop, tokens, .error fault :: later, later', .inr ⟨fault, later, rfl⟩⟩
  have hself := @program_follows (fork _) s s ⟨hs, hs, rfl, tokens, List.Subset.refl _, hv, hv⟩
  cases hr : Rule.program.reader s with
  | ok program middle =>
      rw [hr] at hself
      cases hself with
      | ok _ hmiddle =>
          obtain ⟨hm, -, -, front, -, hma, -⟩ := hmiddle
          obtain ⟨behind, hrest⟩ := remaining_of_fault hm hma
          exact .inl ⟨behind, by simp [parse, bind, EStateM.bind, hr, hrest]⟩
  | error found behind =>
      rw [hr] at hself
      cases hself with
      | ended hnil => simp [fork] at hnil
      | stopped hfault =>
          cases hfault
          exact .inl ⟨behind, parse_of_program_error hr⟩
      | @refused cause token _ _ ht hc =>
          refine .inr ⟨cause, hc, token, ht, ?_⟩
          intro s' later' hs' hv'
          have hother := @program_follows (fork later') s s'
            ⟨hs, hs', rfl, tokens, List.Subset.refl _, hv, hv'⟩
          rw [hr] at hother
          obtain ⟨behind', hr'⟩ := hother.refuses hc
          exact ⟨behind', parse_of_program_error hr'⟩

/-- Where no lexical fault lies ahead, a token is refused, or one is missing at the end of the
source. -/
theorem parse_error_of_tokens {s behind : TokenStream} (hs : s.Plain) {tokens : List Node}
    (hv : s.ahead = tokens.map .ok) {fault : SyntaxFault} (h : parse s = .error fault behind) :
    (fault.cause.AtToken ∧ ∃ token ∈ tokens, fault.span = token.span) ∨
      ∃ expected, fault = ⟨.unexpectedEnd expected, .point s.stop⟩ := by
  let fork : Fork := ⟨s.stop, tokens, [], [], .inl ⟨rfl, rfl⟩⟩
  have hall : s.ahead = tokens.map .ok ++ [] := by rw [hv, List.append_nil]
  have hself := @program_follows fork s s
    ⟨hs, hs, rfl, tokens, List.Subset.refl _, hall, hall⟩
  cases hr : Rule.program.reader s with
  | ok program middle =>
      rw [hr] at hself
      cases hself with
      | ok _ hmiddle =>
          obtain ⟨hm, -, -, front, -, hma, -⟩ := hmiddle
          obtain ⟨last, hrest, -⟩ := remaining_returns front middle hm (by simpa [fork] using hma)
          simp [parse, bind, EStateM.bind, hr, hrest, pure, EStateM.pure] at h
  | error found middle =>
      rw [parse_of_program_error hr] at h
      cases h
      rw [hr] at hself
      cases hself with
      | @refused _ token _ _ ht hc => exact .inl ⟨hc, token, ht, rfl⟩
      | ended => exact .inr ⟨_, rfl⟩
      | stopped hfault => simp [fork] at hfault

/-- No lexical fault is reported where none lies ahead. -/
theorem parse_of_tokens {s behind : TokenStream} (hs : s.Plain) {tokens : List Node}
    (hv : s.ahead = tokens.map .ok) {fault : SyntaxFault} (h : parse s = .error fault behind)
    (inner : LexicalFault) : fault.cause ≠ .lexical inner := by
  rcases parse_error_of_tokens hs hv h with ⟨hc, -⟩ | ⟨expected, rfl⟩
  · intro hcause
    rw [hcause] at hc
    cases hc
  · simp

end Grammar

end MiniSmalltalk
