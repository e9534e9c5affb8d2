import MiniSmalltalk.Proofs.Grammar.Failing
import MiniSmalltalk.Proofs.Grammar.Foresight

/-! # Where programs fail

Every production fails behind the beginning of a phrase of its own, however deep the fault lies
inside it and whatever it has given back before. So a program fails behind tokens that some
program goes on with. -/

namespace MiniSmalltalk.Grammar

variable {α β : Type}

/-- Pieces of a language and one more of them. -/
theorem forall_mem_concat {language : List Node → α → Prop} {pieces : List (Piece α)}
    (hp : ∀ piece ∈ pieces, language piece.tokens piece.value) {tokens : List Node} {value : α}
    (h : language tokens value) :
    ∀ piece ∈ pieces ++ [⟨tokens, value⟩], language piece.tokens piece.value :=
  List.forall_mem_append.mpr ⟨hp, List.forall_mem_singleton.mpr h⟩

theorem tokensOf_concat (pieces : List (Piece α)) (tokens : List Node) (value : α) :
    Piece.tokensOf (pieces ++ [⟨tokens, value⟩]) = Piece.tokensOf pieces ++ tokens := by
  simp [Piece.tokensOf]

theorem matched_stop {view later : List Reading} (h : later = view) :
    ∃ tokens : List Node, view = tokens.map .ok ++ later :=
  ⟨[], h.symm⟩

/-! ### Literals and declarations -/

section

variable {before : List Node} {viable : List Node → Prop} {view : List Reading} {limit : Nat}

theorem numberLiteral_faults (view : List Reading) : Faults before viable view numberLiteral := by
  refine (acceptBinary_faults "-" view).bindMatched (acceptBinary_reads "-" view) ?_ ?_
  · refine (accept_faults .integer view).bindMatched (accept_reads .integer view) ?_ ?_
    · exact .of_returns ((unread_none_returns view).bind .pure)
    · intro tokens number later _ _ _
      exact .pure
  · rintro tokens minus later rfl - ⟨rfl, hm⟩
    refine (accept_faults .integer later).bindMatched (accept_reads .integer later) ?_ ?_
    · exact .of_returns ((unread_returns hm.leaf later).bind .pure)
    · intro tokens number left _ _ _
      exact .pure

theorem literal_faults (view : List Reading) : Faults before viable view literal := by
  refine (numberLiteral_faults view).bindMatched (numberLiteral_reads view) ?_ ?_
  · exact accept_faults .string view
  · intro tokens number later _ _ _
    exact .pure

theorem many_identifier_faults (limit : Nat) :
    Faults before viable view (many identifier limit) :=
  many_faults (fun view _ => accept_reads .identifier view) matched_stop
    (fun _ _ view _ => accept_faults .identifier view) (Nat.le_refl _) limit

theorem temporaries_faults (hl : (tokensIn view).length < limit) :
    Faults [] (Viable Temporaries) view (temporaries limit) := by
  unfold temporaries
  refine (acceptBinary_faults "|" view).bindMatched (acceptBinary_reads "|" view) .pure ?_
  rintro tokens opening later rfl - ⟨rfl, ho⟩
  simp only [tokensIn_append, List.length_append] at hl
  have hnames := many_reads (fun view _ => accept_reads .identifier view) (Nat.le_refl _)
    (by omega : (tokensIn later).length < limit) (by omega : (tokensIn later).length < limit)
  refine (many_identifier_faults limit).bind hnames ?_
  rintro names left ⟨pieces, rest, rfl, rfl, rfl, hp⟩
  refine ⟨Piece.tokensOf pieces, rfl, (expectIf_faults ?_ _ _ left).last fun _ => ⟨_, rfl⟩⟩
  rw [tokensOf_eq_values fun piece hm => (hp piece hm).1]
  refine ⟨[.leaf .binary "|" .origin], ?_⟩
  by_cases hnil : Piece.values pieces = []
  · rw [hnil]
    exact ⟨_, by decide, .none ho ⟨⟨rfl, rfl⟩, rfl⟩⟩
  · exact ⟨_, by decide, .present hnil ho (terminal_of_mem_values hp) ⟨⟨rfl, rfl⟩, rfl⟩⟩

theorem blockArgument_faults (view : List Reading) :
    Faults [] (Viable Parameter) view blockArgument := by
  refine (accept_faults .colon view).bindMatched (accept_reads .colon view) .pure ?_
  rintro tokens colon later rfl - ⟨rfl, hc⟩
  refine (expectIf_faults ?_ _ _ later).last fun _ => ⟨_, rfl⟩
  exact ⟨[.leaf .identifier "x" .origin], _, by decide, .mk hc ⟨rfl, rfl⟩⟩

theorem viable_parameters {pieces : List (Piece Node)}
    (hp : ∀ piece ∈ pieces, Parameter piece.tokens piece.value) (hne : pieces ≠ []) :
    Viable Parameters (Piece.tokensOf pieces) :=
  ⟨[.leaf .binary "|" .origin], _, by decide, .present hne hp ⟨⟨rfl, rfl⟩, rfl⟩⟩

theorem blockArguments_faults (hl : (tokensIn view).length < limit) :
    Faults [] (Viable Parameters) view (blockArguments limit) := by
  unfold blockArguments
  have hnames := many_reads (fun view _ => blockArgument_reads view) (Nat.le_refl _) hl hl
  refine Faults.bind ?_ hnames ?_
  · refine many_faults (fun view _ => blockArgument_reads view) matched_stop ?_ (Nat.le_refl _)
      limit
    intro pieces hp view _
    refine (blockArgument_faults view).within fun tokens name hn => ?_
    have hviable := viable_parameters (forall_mem_concat hp hn) (by simp)
    rwa [tokensOf_concat] at hviable
  · rintro names later ⟨pieces, rest, rfl, rfl, rfl, hp⟩
    refine ⟨Piece.tokensOf pieces, rfl, ?_⟩
    cases pieces with
    | nil => exact .pure
    | cons piece pieces =>
        exact (expectIf_faults (viable_parameters hp (by simp)) _ _ later).last fun _ => ⟨_, rfl⟩

end

/-! ### Statements and blocks -/

/-- A reader of expressions where fewer than `bound` tokens lie ahead, which fails where an
expression does. -/
structure Inside (bound : Nat) (inner : Production) : Prop where
  reads : Inner bound inner inner
  faults : ∀ view, (tokensIn view).length < bound →
    Faults [] (Viable (Derivation .expression)) view inner

theorem Inside.mono {bound smaller : Nat} {inner : Production} (h : Inside bound inner)
    (hle : smaller ≤ bound) : Inside smaller inner :=
  ⟨h.reads.mono hle, fun view hv => h.faults view (Nat.lt_of_lt_of_le hv hle)⟩

/-- A name is an expression. -/
theorem viable_expression : Viable (Derivation .expression) [] :=
  ⟨[.leaf .identifier "x" .origin], _, by decide,
    @Derivation.send _ _ none [] (.name ⟨rfl, rfl⟩) (by simp) (by simp)⟩

section

variable {bound limit : Nat} {inner : Production} {view : List Reading}

theorem returnStatement_faults (hi : Inside bound inner) (hb : (tokensIn view).length ≤ bound) :
    Faults [] (Viable Answer) view (returnStatement inner) := by
  refine (accept_faults .answer view).bindMatched (accept_reads .answer view) .pure ?_
  rintro tokens caret later rfl - ⟨rfl, hc⟩
  have hanswer : ∀ tokens tree, Derivation .expression tokens tree →
      Viable Answer ([] ++ [caret] ++ tokens) :=
    fun tokens tree ht => .complete (.mk hc ht)
  refine ((hi.faults later hb).within hanswer).bindMatched (hi.reads later hb) ?_ ?_
  · refine missingExpression_faults (by simp [hc.kind_eq]) ?_ later
    simpa using viable_expression.behind hanswer
  · intro tokens tree left _ _ _
    exact .pure

theorem nextStatement_faults (hi : Inside bound inner) (hb : (tokensIn view).length ≤ bound) :
    Faults [] (Viable (Derivation .nextStatement)) view (nextStatement inner) := by
  refine (accept_faults .dot view).bindMatched (accept_reads .dot view) .pure ?_
  rintro tokens dot later rfl - ⟨rfl, hd⟩
  exact (hi.faults later hb).within fun tokens tree ht => .complete (.nextStatement hd ht)

theorem statements_faults (hi : Inside (bound + 1) inner) (hb : (tokensIn view).length ≤ bound) :
    Faults [] (Viable (Derivation .program)) view (statements limit inner) := by
  have hi' : Inside bound inner := hi.mono (Nat.le_succ bound)
  have hlt := Nat.lt_succ_of_le hb
  unfold statements
  refine Faults.bindMatched ?_ (returnStatement_reads hi'.reads hb) ?_ ?_
  · refine (returnStatement_faults hi' hb).within fun tokens tree ha => ?_
    cases ha with
    | mk hc ht => exact .complete (by simpa using Derivation.answer hc ht .absent)
  · refine Faults.bindMatched ?_ (hi.reads view hlt) .pure ?_
    · refine (hi.faults view hlt).within fun tokens first hfirst => ?_
      have hprogram := @Derivation.statements _ _ _ [] hfirst (by simp) .absent
      exact .complete (by simpa using hprogram)
    · rintro tokens first later rfl hne hfirst
      simp only [tokensIn_append, List.length_append] at hb
      refine Faults.last ?_ fun _ => ⟨_, rfl⟩
      refine many_faults (fun view hv => nextStatement_reads hi'.reads hv) ?_ ?_ (by omega) limit
      · intro view later hdot
        obtain ⟨dots, -, hv⟩ := hdot.optionally
        exact ⟨dots, hv⟩
      · intro pieces hp view hv
        refine (nextStatement_faults hi' hv).within fun words tree ht => ?_
        have hprogram := Derivation.statements hfirst (forall_mem_concat hp ht) .absent
        exact .complete (by simpa [tokensOf_concat] using hprogram)
  · intro tokens statement later _ _ _
    exact (accept_faults .dot later).last fun _ => ⟨_, rfl⟩

theorem Matched.parameters {found : Option Node} {later : List Reading}
    (h : Matched (fun tokens node => Parameters tokens [node]) view found later) :
    ∃ tokens : List Node, view = tokens.map .ok ++ later ∧ Parameters tokens found.toList := by
  cases found with
  | none => exact ⟨[], h.symm, .absent⟩
  | some node =>
      obtain ⟨tokens, hv, -, hp⟩ := h
      exact ⟨tokens, hv, hp⟩

theorem Matched.temporaries {found : Option Node} {later : List Reading}
    (h : Matched Declared view found later) :
    ∃ tokens names : List Node, view = tokens.map .ok ++ later ∧ Temporaries tokens names := by
  cases found with
  | none => exact ⟨[], [], h.symm, .absent⟩
  | some node =>
      obtain ⟨tokens, hv, -, ht⟩ := h
      exact ⟨tokens, _, hv, ht⟩

theorem blockBody_faults (hi : Inside (bound + 1) inner) (hb : (tokensIn view).length ≤ bound)
    (hl : bound < limit) :
    Faults [] (Viable BlockParts) view (blockBody limit inner) := by
  unfold blockBody
  refine Faults.bind ?_ (blockArguments_reads (by omega) (by omega)) ?_
  · refine (blockArguments_faults (by omega)).within fun tokens arguments hpar => ?_
    have hparts := @BlockParts.mk _ _ _ _ none hpar .absent (by simp)
    exact .complete (by simpa using hparts)
  · intro arguments later ha
    obtain ⟨tokens, rfl, hpar⟩ := Matched.parameters ha
    simp only [tokensIn_append, List.length_append] at hb
    refine ⟨tokens, rfl, Faults.bind ?_ (temporaries_reads (by omega) (by omega)) ?_⟩
    · refine (temporaries_faults (by omega)).within fun tokens' names htmp => ?_
      have hparts := @BlockParts.mk _ _ _ _ none hpar htmp (by simp)
      exact .complete (by simpa using hparts)
    · intro declared left hd
      obtain ⟨tokens', names, rfl, htmp⟩ := Matched.temporaries hd
      simp only [tokensIn_append, List.length_append] at hb
      refine ⟨tokens', rfl, Faults.last ?_ fun _ => ⟨_, rfl⟩⟩
      refine (statements_faults hi (by omega)).within fun words tree ht => ?_
      have hparts := @BlockParts.mk _ _ _ _ (some ⟨words, tree⟩) hpar htmp (by simpa using ht)
      exact .complete (by simpa using hparts)

theorem blockConstructor_faults (hi : Inside bound inner) (hb : (tokensIn view).length ≤ bound)
    (hl : bound < limit) :
    Faults [] (Viable (Derivation .primary)) view (blockConstructor limit inner) := by
  refine (accept_faults .leftSquareBracket view).bindMatched (accept_reads .leftSquareBracket view)
    .pure ?_
  rintro tokens opening later rfl - ⟨rfl, ho⟩
  have hlt : (tokensIn later).length + 1 ≤ bound := hb
  have hi' := hi.mono hlt
  have hclosed : ∀ tokens parts, BlockParts tokens parts →
      Viable (Derivation .primary) ([] ++ [opening] ++ tokens) := by
    rintro _ _ ⟨hpar, htmp, hbody⟩
    have hc : Terminal .rightSquareBracket (.leaf .rightSquareBracket "]" .origin) := ⟨rfl, rfl⟩
    have hblock := Derivation.block ho hpar htmp hbody hc
    exact ⟨[.leaf .rightSquareBracket "]" .origin], _, by decide, by simpa using hblock⟩
  have hbody := blockBody_reads hi'.reads (Nat.le_refl _) (by omega : _ < limit)
    (by omega : _ < limit)
  refine ((blockBody_faults hi' (Nat.le_refl _) (by omega)).within hclosed).bind hbody ?_
  intro found left h
  cases found with
  | none => exact h.elim
  | some body =>
      obtain ⟨tokens, parts, rfl, hparts, rfl⟩ := h
      refine ⟨tokens, rfl, ?_⟩
      exact (expectIf_faults (hclosed tokens parts hparts) _ _ left).last fun _ => ⟨_, rfl⟩

theorem parenthesised_faults (hi : Inside bound inner) (hb : (tokensIn view).length ≤ bound) :
    Faults [] (Viable (Derivation .primary)) view (parenthesised inner) := by
  refine (accept_faults .leftParenthesis view).bindMatched (accept_reads .leftParenthesis view)
    .pure ?_
  rintro tokens opening later rfl - ⟨rfl, ho⟩
  have hclosed : ∀ tokens tree, Derivation .expression tokens tree →
      Viable (Derivation .primary) ([] ++ [opening] ++ tokens) := by
    intro tokens tree ht
    exact ⟨[.leaf .rightParenthesis ")" .origin], tree, by decide,
      .parenthesised ho ht ⟨rfl, rfl⟩⟩
  refine ((hi.faults later hb).within hclosed).bindMatched (hi.reads later hb) ?_ ?_
  · refine missingExpression_faults (by simp [ho.kind_eq]) ?_ later
    simpa using viable_expression.behind hclosed
  · intro tokens tree left _ _ ht
    exact (expectIf_faults (hclosed tokens tree ht) _ _ left).last fun _ => ⟨_, rfl⟩

theorem primary_faults (hi : Inside bound inner) (hb : (tokensIn view).length ≤ bound)
    (hl : bound < limit) :
    Faults [] (Viable (Derivation .primary)) view (primary limit inner) := by
  refine (accept_faults .identifier view).bindMatched (accept_reads .identifier view) ?_ ?_
  · refine (literal_faults view).bindMatched (literal_reads view) ?_ ?_
    · refine (blockConstructor_faults hi hb hl).bindMatched
        (blockConstructor_reads hi.reads hb hl hl) (parenthesised_faults hi hb) ?_
      intro tokens block later _ _ _
      exact .pure
    · intro tokens value later _ _ _
      exact .pure
  · intro tokens name later _ _ _
    exact .pure

/-! ### Messages and expressions -/

theorem followedBy_faults {kind : Kind} {rest : Reader (Option α)} {language : List Node → α → Prop}
    {join : Node → α → β} (hr : ∀ later, (tokensIn later).length < bound →
      Reads later rest rest (Matched language later))
    (hf : ∀ later, (tokensIn later).length < bound → Faults [] (Viable language) later rest)
    (hb : (tokensIn view).length ≤ bound) :
    Faults [] (Viable (Following kind language join)) view (followedBy kind rest join) := by
  refine (accept_faults kind view).bindMatched (accept_reads kind view) .pure ?_
  rintro tokens token later rfl - ⟨rfl, ht⟩
  have hpart : ∀ words part, language words part →
      Viable (Following kind language join) ([] ++ [token] ++ words) :=
    fun words part hp => .complete ⟨token, words, part, rfl, ht, hp, rfl⟩
  refine ((hf later hb).within hpart).bindMatched (hr later hb) ?_ ?_
  · exact .of_returns ((unread_returns ht.leaf later).bind .pure)
  · intro words part left _ _ _
    exact .pure

theorem binaryMessage_faults (hi : Inside bound inner) (hb : (tokensIn view).length ≤ bound)
    (hl : bound < limit) :
    Faults [] (Viable (Derivation .binaryMessage)) view (binaryMessage limit inner) := by
  refine (followedBy_faults (fun _ hv => primary_reads hi.reads (Nat.le_of_lt hv) hl hl)
    (fun _ hv => primary_faults hi (Nat.le_of_lt hv) hl) hb).within ?_
  rintro tokens message ⟨selector, words, argument, rfl, hs, ha, rfl⟩
  exact .complete (.binaryMessage hs ha)

theorem keywordSegment_faults (hi : Inside bound inner) (hb : (tokensIn view).length ≤ bound)
    (hl : bound < limit) :
    Faults [] (Viable (Following .keyword (Derivation .primary) Prod.mk)) view
      (keywordSegment limit inner) :=
  followedBy_faults (fun _ hv => primary_reads hi.reads (Nat.le_of_lt hv) hl hl)
    (fun _ hv => primary_faults hi (Nat.le_of_lt hv) hl) hb

/-- Selectors with their arguments are a message, however many there are. -/
theorem viable_keywordMessage {pairs : List (Piece (Node × Node))} (hne : pairs ≠ [])
    (hp : ∀ pair ∈ pairs, Following .keyword (Derivation .primary) Prod.mk pair.tokens pair.value) :
    Viable KeywordMessage (Piece.tokensOf pairs) := by
  obtain ⟨segments, htokens, hvalues, hs⟩ := exists_segments hp
  have hsegments : segments ≠ [] := by
    rintro rfl
    simp [Piece.values, hne] at hvalues
  exact .complete ⟨segments, hsegments, htokens.symm, rfl, hs⟩

theorem keywordMessage_faults (hi : Inside bound inner) (hb : (tokensIn view).length ≤ bound)
    (hl : bound < limit) :
    Faults [] (Viable KeywordMessage) view (keywordMessage limit inner) := by
  refine Faults.bindMatched ?_ (keywordSegment_reads hi.reads hb hl hl) .pure ?_
  · refine (keywordSegment_faults hi hb hl).within fun tokens pair hpair => ?_
    have hmessage := @viable_keywordMessage [⟨tokens, pair⟩] (by simp) (by simpa using hpair)
    simpa using hmessage
  · rintro tokens first later rfl - hfirst
    simp only [tokensIn_append, List.length_append] at hb
    refine Faults.last ?_ fun _ => ⟨_, rfl⟩
    refine many_faults (fun view hv => keywordSegment_reads hi.reads hv hl hl) matched_stop ?_
      (by omega) limit
    intro pairs hp view hv
    refine (keywordSegment_faults hi hv hl).within fun words last hlast => ?_
    have hall : ∀ pair ∈ (Piece.mk tokens first :: pairs) ++ [⟨words, last⟩],
        Following .keyword (Derivation .primary) Prod.mk pair.tokens pair.value :=
      forall_mem_concat (List.forall_mem_cons.mpr ⟨hfirst, hp⟩) hlast
    have hmessage := viable_keywordMessage (by simp) hall
    rw [tokensOf_concat] at hmessage
    simpa using hmessage

theorem messages_faults (hi : Inside bound inner) (hb : (tokensIn view).length ≤ bound)
    (hl : bound < limit) :
    Faults [] (Viable (Derivation .messages)) view (messages limit inner) := by
  unfold messages
  refine (many_identifier_faults limit).bind (many_reads (fun view _ =>
    accept_reads .identifier view) (Nat.le_refl _) (by omega) (by omega)) ?_
  rintro unary later ⟨names, rest, rfl, rfl, rfl, hu⟩
  simp only [tokensIn_append, List.length_append] at hb
  have hnames := terminal_of_mem_values hu
  have htokens : Piece.tokensOf names = Piece.values names :=
    tokensOf_eq_values fun piece hm => (hu piece hm).1
  refine ⟨Piece.tokensOf names, rfl, Faults.bind ?_ (many_reads
    (fun view hv => binaryMessage_reads hi.reads hv hl hl) (by omega) (by omega) (by omega)) ?_⟩
  · refine many_faults (fun view hv => binaryMessage_reads hi.reads hv hl hl) matched_stop ?_
      (by omega) limit
    intro pieces hp view hv
    refine (binaryMessage_faults hi hv hl).within fun tokens message hmessage => ?_
    have hrun := @Derivation.messages _ _ [] hnames (forall_mem_concat hp hmessage) (by simp)
      (by simp)
    exact .complete (by simpa [htokens, tokensOf_concat] using hrun)
  · rintro binary left ⟨pieces, rest, rfl, rfl, rfl, hp⟩
    simp only [tokensIn_append, List.length_append] at hb
    refine ⟨Piece.tokensOf pieces, rfl, Faults.last ?_ ?_⟩
    · refine (keywordMessage_faults hi (by omega) hl).within ?_
      rintro tokens message ⟨segments, hne, rfl, -, hs⟩
      have hrun := Derivation.messages hnames hp hs (.inr (.inr hne))
      exact .complete (by simpa [htokens] using hrun)
    · intro last
      split <;> exact ⟨_, rfl⟩

theorem cascade_faults (hi : Inside bound inner) (hb : (tokensIn view).length ≤ bound)
    (hl : bound < limit) :
    Faults [] (Viable (Derivation .cascade)) view (cascade limit inner) := by
  refine (followedBy_faults (fun _ hv => messages_reads hi.reads (Nat.le_of_lt hv) hl hl)
    (fun _ hv => messages_faults hi (Nat.le_of_lt hv) hl) hb).within ?_
  rintro tokens run ⟨semicolon, words, _, rfl, hs, hr, rfl⟩
  exact .complete (.cascade hs hr)

theorem basicExpression_faults (hi : Inside bound inner) (hb : (tokensIn view).length ≤ bound)
    (hl : bound < limit) :
    Faults [] (Viable (Derivation .expression)) view (basicExpression limit inner) := by
  refine Faults.bindMatched ?_ (primary_reads hi.reads hb hl hl) .pure ?_
  · refine (primary_faults hi hb hl).within fun tokens receiver hr => ?_
    have hsend := @Derivation.send _ _ none [] hr (by simp) (by simp)
    exact .complete (by simpa using hsend)
  · rintro tokens receiver later rfl - hr
    simp only [tokensIn_append, List.length_append] at hb
    have hcascades : ∀ {run : Option (Piece Node)} {view : List Reading},
        (∀ piece ∈ run, Derivation .messages piece.tokens piece.value) →
        (tokensIn view).length ≤ bound →
        Faults (tokens ++ Piece.tokensOf run.toList) (Viable (Derivation .expression)) view
          (many (cascade limit inner) limit) := by
      intro run view hrun hv
      refine many_faults (fun view hv => cascade_reads hi.reads hv hl hl) matched_stop ?_ hv limit
      intro pieces hp view hv
      refine (cascade_faults hi hv hl).within fun words next hnext => ?_
      have hsend := Derivation.send hr hrun (forall_mem_concat hp hnext)
      exact .complete (by simpa [tokensOf_concat] using hsend)
    refine Faults.bindMatched ?_ (messages_reads hi.reads (by omega) hl hl) ?_ ?_
    · refine (messages_faults hi (by omega) hl).within fun words run hrun => ?_
      have hsend := @Derivation.send _ _ (some ⟨words, run⟩) [] hr (by simpa using hrun) (by simp)
      exact .complete (by simpa using hsend)
    · have hmany := @hcascades none later (by simp) (by omega)
      refine Faults.last ?_ fun _ => ⟨_, rfl⟩
      simpa using hmany
    · rintro words run left rfl - hrun
      simp only [tokensIn_append, List.length_append] at hb
      have hmany := @hcascades (some ⟨words, run⟩) left (by simpa using hrun) (by omega)
      refine Faults.last ?_ fun _ => ⟨_, rfl⟩
      simpa using hmany

theorem assignment_faults (hi : Inside bound inner) (hb : (tokensIn view).length ≤ bound) :
    Faults [] (Viable Assigned) view (assignment inner) := by
  refine (accept_faults .identifier view).bindMatched (accept_reads .identifier view) .pure ?_
  rintro tokens name later rfl - ⟨rfl, hn⟩
  refine (accept_faults .assignment later).bindMatched (accept_reads .assignment later) ?_ ?_
  · exact .of_returns ((unread_returns hn.leaf later).bind .pure)
  · rintro tokens sign left rfl - ⟨rfl, hs⟩
    have hlt : (tokensIn left).length < bound := Nat.lt_of_succ_lt hb
    have hassigned : ∀ tokens tree, Derivation .expression tokens tree →
        Viable Assigned ([] ++ [name] ++ [sign] ++ tokens) :=
      fun tokens tree ht => .complete (.mk hn hs ht)
    refine ((hi.faults left hlt).within hassigned).bindMatched (hi.reads left hlt) ?_ ?_
    · refine missingExpression_faults (by simp [hs.kind_eq]) ?_ left
      simpa using viable_expression.behind hassigned
    · intro tokens tree last _ _ _
      exact .pure

theorem expressionStep_faults (hi : Inside bound inner) (hb : (tokensIn view).length ≤ bound)
    (hl : bound < limit) :
    Faults [] (Viable (Derivation .expression)) view (expressionStep limit inner) := by
  refine Faults.bindMatched ?_ (assignment_reads hi.reads hb) (basicExpression_faults hi hb hl) ?_
  · refine (assignment_faults hi hb).within fun tokens tree ha => ?_
    exact .complete ha.derivation
  · intro tokens tree later _ _ _
    exact .pure

end

/-- Expressions inside one another are read with less depth each, as long as tokens are left. -/
theorem expressionUpTo_inside (depth : Nat) : Inside depth (expressionUpTo depth) := by
  induction depth with
  | zero =>
      exact ⟨fun _ hv => absurd hv (Nat.not_lt_zero _), fun _ hv => absurd hv (Nat.not_lt_zero _)⟩
  | succ depth ih =>
      have hlt := Nat.lt_succ_self depth
      exact ⟨fun view hv => expressionStep_reads ih.reads (Nat.le_of_lt_succ hv) hlt hlt,
        fun view hv => expressionStep_faults ih (Nat.le_of_lt_succ hv) hlt⟩

/-! ### Programs -/

theorem program_faults (s : TokenStream) :
    Faults [] (Viable (Derivation .program)) s.ahead
      (statements (s.size + 1) (expressionUpTo (s.size + 1))) :=
  statements_faults (expressionUpTo_inside (s.size + 1)) s.length_tokensIn_ahead_le

/-- Reading gives tokens one after the other, and then comes to the end. -/
def Supplies : List Node → TokenStream → Prop
  | [], s => ∃ behind, read s = .ok none behind
  | token :: tokens, s => ∃ behind, read s = .ok (some token) behind ∧ Supplies tokens behind

theorem supplies_of_ahead {s : TokenStream} (hs : s.Plain) {tokens : List Node}
    (hv : s.ahead = tokens.map .ok) : Supplies tokens s := by
  induction tokens generalizing s with
  | nil =>
      obtain ⟨behind, hr, -, -⟩ := read_returns_none s hs hv
      exact ⟨behind, hr⟩
  | cons token tokens ih =>
      obtain ⟨behind, hr, hb, hba⟩ := read_returns_some token _ s hs hv
      exact ⟨behind, hr, ih hb hba⟩

theorem eq_append_of_map_ok {tokens front : List Node} {rest : List Reading}
    (h : tokens.map .ok = front.map .ok ++ rest) :
    ∃ others : List Node, tokens = front ++ others ∧ rest = others.map .ok := by
  obtain ⟨first, others, rfl, hfirst, rfl⟩ := List.map_eq_append_iff.mp h
  rw [List.map_inj_right fun _ _ heq => Except.ok.inj heq] at hfirst
  exact ⟨others, by rw [hfirst], rfl⟩

/-- Where only tokens lie ahead, a parse can fail only in its program. -/
theorem program_error_of_parse {s behind : TokenStream} (hs : s.Plain) {tokens : List Node}
    (hv : s.ahead = tokens.map .ok) {fault : SyntaxFault} (h : parse s = .error fault behind) :
    Rule.program.reader s = .error fault behind := by
  cases hr : Rule.program.reader s with
  | error first middle =>
      rw [parse_of_program_error hr] at h
      cases h
      rfl
  | ok program middle =>
      obtain ⟨hmiddle, hmatched⟩ := (program_reads s).of_ok hs rfl hr
      obtain ⟨front, hfront⟩ := hmatched.suffix
      rw [hv] at hfront
      obtain ⟨_, others, -, -, hothers⟩ := List.map_eq_append_iff.mp hfront.symm
      obtain ⟨last, hrest, -, -⟩ := remaining_returns others middle hmiddle hothers.symm
      simp [parse, bind, EStateM.bind, hr, hrest, pure, EStateM.pure] at h

/-- The tokens of a source that does not parse split where the fault is located. -/
theorem exists_split_of_parse {source : String} {tokens : List Node} {fault : SyntaxFault}
    {behind : TokenStream} (ht : tokenize source = .ok tokens)
    (h : parse (.ofString source) = .error fault behind) :
    ∃ front rest : List Node, tokens = front ++ rest ∧ Viable (Derivation .program) front ∧
      Supplies rest behind ∧ Located front (rest.map .ok) fault := by
  have hs := TokenStream.plain_ofString source
  have hv := tokenize_eq_ok_iff.mp ht
  have hr := program_error_of_parse hs hv h
  have hplain := (program_reads (.ofString source)).plain_left hs rfl
  rcases program_faults (.ofString source) _ _ _ hs rfl hr with ⟨inner, hlexical⟩ | hplace
  · exact absurd hlexical (parse_of_tokens hs hv h inner)
  · obtain ⟨front, rest, hfront, hbehind, hviable, hlocated⟩ := hplace
    obtain ⟨others, rfl, rfl⟩ := eq_append_of_map_ok (hv.symm.trans hfront)
    change (left (Rule.program.reader (.ofString source))).Plain at hplain
    rw [hr] at hplain
    exact ⟨front, others, rfl, hviable, supplies_of_ahead hplain hbehind, hlocated⟩

/-- A source whose tokens do not parse fails behind tokens that some program goes on with, and
reading goes on behind them. A token that was not expected is the first one behind, the end that was
not expected follows all tokens, and a missing expression is missing behind the last of them. -/
theorem syntax_faults_end_viable_prefixes (source : String) (tokens : List Node)
    (fault : SyntaxFault) (behind : TokenStream) (ht : tokenize source = .ok tokens)
    (h : parse (.ofString source) = .error fault behind) :
    (∀ expected found, fault.cause = .unexpectedToken expected found →
      ∃ (index : Nat) (token : Node), tokens[index]? = some token ∧ fault.span = token.span ∧
        found = token.describe ∧ Viable (Derivation .program) (tokens.take index) ∧
        Supplies (tokens.drop index) behind) ∧
    (∀ expected, fault.cause = .unexpectedEnd expected →
      Viable (Derivation .program) tokens ∧ fault.span = .point source.utf8ByteSize ∧
        Supplies [] behind) ∧
    (∀ after, fault.cause = .missingExpression after →
      ∃ (index : Nat) (token : Node), tokens[index]? = some token ∧ fault.span = token.span ∧
        after = token.describe ∧ token.kind ∈ [Kind.answer, .assignment, .leftParenthesis] ∧
        Viable (Derivation .program) (tokens.take (index + 1)) ∧
        Supplies (tokens.drop (index + 1)) behind) ∧
    (fault.cause.AtToken ∨ ∃ expected, fault.cause = .unexpectedEnd expected) := by
  have hs := TokenStream.plain_ofString source
  have hplace := parse_error_of_tokens hs (tokenize_eq_ok_iff.mp ht) h
  obtain ⟨front, rest, rfl, hviable, hsupplies, hlocated⟩ := exists_split_of_parse ht h
  refine ⟨?_, ?_, ?_, ?_⟩
  · intro expected found hcause
    cases hlocated with
    | @unexpectedToken _ token later hrest =>
        cases hcause
        obtain ⟨first, others, rfl, hfirst, -⟩ := List.map_eq_cons_iff.mp hrest
        obtain rfl := Except.ok.inj hfirst
        exact ⟨front.length, first, by simp, rfl, rfl, by simpa using hviable,
          by simpa using hsupplies⟩
    | unexpectedEnd => cases hcause
    | missingExpression => cases hcause
  · intro expected hcause
    rcases hplace with ⟨hc, -⟩ | ⟨_, rfl⟩
    · rw [hcause] at hc
      cases hc
    · cases hlocated with
      | unexpectedEnd hrest =>
          obtain rfl := List.map_eq_nil_iff.mp hrest
          exact ⟨by simpa using hviable, by rw [TokenStream.stop_ofString], hsupplies⟩
  · intro after hcause
    cases hlocated with
    | unexpectedToken => cases hcause
    | unexpectedEnd => cases hcause
    | @missingExpression before token hfront hk =>
        cases hcause
        subst hfront
        have hlength : (before ++ [token]).length = before.length + 1 := by simp
        refine ⟨before.length, token, by simp, rfl, rfl, hk, ?_, ?_⟩
        · rwa [List.take_left' hlength]
        · rwa [List.drop_left' hlength]
  · rcases hplace with ⟨hc, -⟩ | ⟨expected, rfl⟩
    · exact .inl hc
    · exact .inr ⟨expected, rfl⟩

/-- The fault at which the grammar stops in a source. -/
def faultOf? (source : String) : Option SyntaxFault :=
  match parse (.ofString source) with
  | .ok _ _ => none
  | .error fault _ => some fault

/-- Both a sign and the semicolon in front of it have been given back before the fault is found,
which is not the last token that was read. -/
theorem syntax_faults_end_viable_prefixes_given_back :
    ∃ tokens fault behind, tokenize "[ x at: 1 put: ( y ; - ) ]" = .ok tokens ∧
      parse (.ofString "[ x at: 1 put: ( y ; - ) ]") = .error fault behind ∧
      ∃ (index : Nat) (token : Node), tokens[index]? = some token ∧
        token.span = ⟨19, 20⟩ ∧ token.describe = "`;`" ∧
        Viable (Derivation .program) (tokens.take index) ∧
        Supplies (tokens.drop index) behind := by
  have htokens : (tokenize "[ x at: 1 put: ( y ; - ) ]").toOption.isSome = true := by
    decide +kernel
  have hfault : faultOf? "[ x at: 1 put: ( y ; - ) ]" =
      some ⟨.unexpectedToken "`)` after a parenthesised expression" "`;`", ⟨19, 20⟩⟩ := by
    decide +kernel
  cases ht : tokenize "[ x at: 1 put: ( y ; - ) ]" with
  | error first => simp [ht, Except.toOption] at htokens
  | ok tokens =>
      cases h : parse (.ofString "[ x at: 1 put: ( y ; - ) ]") with
      | ok parsed behind => simp [faultOf?, h] at hfault
      | error fault behind =>
          rw [faultOf?, h] at hfault
          cases hfault
          obtain ⟨htoken, -⟩ := syntax_faults_end_viable_prefixes _ tokens _ behind ht h
          obtain ⟨index, token, hindex, hspan, hfound, hviable, hsupplies⟩ := htoken _ _ rfl
          exact ⟨tokens, _, behind, rfl, rfl, index, token, hindex, hspan.symm, hfound.symm,
            hviable, hsupplies⟩

end MiniSmalltalk.Grammar
