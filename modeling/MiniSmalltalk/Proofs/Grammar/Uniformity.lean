import MiniSmalltalk.Proofs.Grammar.Parallel

/-! # Uniformity of the productions

No production looks at the position of a token. So sources with the same tokens parse alike, or
fail to parse for the same cause. -/

namespace MiniSmalltalk

namespace Grammar

/-! ### Literals and declarations -/

theorem numberLiteral_uniform : Uniform numberLiteral numberLiteral := by
  refine (acceptBinary_uniform "-").bindOption ?_ ?_
  · refine (accept_uniform .integer).bindOption (.pure rfl) ?_
    intro number number' hnumber
    exact .pure (congrArg some hnumber)
  · intro minus minus' hminus
    refine (accept_uniform .integer).bindOption ?_ ?_
    · exact (unread_parallel hminus).bind fun _ _ _ => .pure rfl
    · intro number number' hnumber
      refine .pure (congrArg some ?_)
      rw [negative_placeless, negative_placeless, hminus, hnumber]

theorem literal_uniform : Uniform literal literal := by
  refine numberLiteral_uniform.bindOption (accept_uniform .string) ?_
  intro number number' hnumber
  exact .pure (congrArg some hnumber)

theorem appendAll_bare_congr (kind : Kind) (span span' : Span) {parts parts' : List Node}
    (h : parts'.map Node.placeless = parts.map Node.placeless) :
    ((Node.bare kind span').appendAll parts').placeless =
      ((Node.bare kind span).appendAll parts).placeless := by
  rw [Node.appendAll_placeless, Node.appendAll_placeless, h, Node.bare_placeless,
    Node.bare_placeless]

theorem temporaries_uniform (limit : Nat) : Uniform (temporaries limit) (temporaries limit) := by
  refine (acceptBinary_uniform "|").bindOption (.pure rfl) ?_
  intro opening opening' _
  refine (many_parallel (accept_uniform .identifier) limit).bind fun names names' hnames => ?_
  refine (expectBinary_parallel "|" _).bind fun closing closing' _ => .pure (congrArg some ?_)
  rw [Node.withSpan_placeless, Node.withSpan_placeless]
  exact appendAll_bare_congr .temporaries _ _ hnames

theorem blockArgument_uniform : Uniform blockArgument blockArgument := by
  refine (accept_uniform .colon).bindOption (.pure rfl) fun _ _ _ => ?_
  refine (expect_parallel .identifier _).bind fun name name' hname => ?_
  exact .pure (congrArg some hname)

theorem blockArguments_uniform (limit : Nat) :
    Uniform (blockArguments limit) (blockArguments limit) := by
  refine (many_parallel blockArgument_uniform limit).bindList (.pure rfl) ?_
  intro first first' others others' hfirst hothers
  refine (expectBinary_parallel "|" _).bind fun _ _ _ => .pure (congrArg some ?_)
  exact appendAll_bare_congr .blockArguments _ _ (List.cons_eq_cons.mpr ⟨hfirst, hothers⟩)

/-! ### Statements and blocks -/

variable {inner other : Production} (h : Uniform inner other) (limit : Nat)

include h

theorem returnStatement_uniform : Uniform (returnStatement inner) (returnStatement other) := by
  refine (accept_uniform .answer).bindOption (.pure rfl) ?_
  intro caret caret' hcaret
  refine h.bindOption (missingExpression_parallel hcaret) ?_
  intro value value' hvalue
  refine .pure (congrArg some ?_)
  rw [Node.append_placeless, Node.append_placeless, hcaret, hvalue]

theorem nextStatement_uniform : Uniform (nextStatement inner) (nextStatement other) :=
  (accept_uniform .dot).bindOption (.pure rfl) fun _ _ _ => h

theorem statements_uniform : Uniform (statements limit inner) (statements limit other) := by
  refine (returnStatement_uniform h).bindOption (h.bindOption (.pure rfl) ?_) ?_
  · intro first first' hfirst
    refine (many_parallel (nextStatement_uniform h) limit).bind fun others others' hothers => ?_
    refine .pure ?_
    rw [sequence_placeless, sequence_placeless, List.map_cons, List.map_cons, hfirst, hothers]
  · intro statement statement' hstatement
    exact (accept_uniform .dot).bind fun _ _ _ => .pure (congrArg some hstatement)

omit h in
theorem map_toList_congr {found found' : Option Node}
    (h : found'.map Node.placeless = found.map Node.placeless) :
    found'.toList.map Node.placeless = found.toList.map Node.placeless := by
  rw [← Option.toList_map, ← Option.toList_map, h]

omit h in
theorem filter_isLeaf_congr {found found' : Option Node}
    (h : found'.map Node.placeless = found.map Node.placeless) :
    (found'.filter fun node => !node.isLeaf).map Node.placeless =
      (found.filter fun node => !node.isLeaf).map Node.placeless := by
  cases found with
  | none =>
      obtain rfl := Option.map_eq_none_iff.mp h
      rfl
  | some node =>
      obtain ⟨node', rfl, hnode⟩ := Option.map_eq_some_iff.mp h
      by_cases hl : node.isLeaf = true
      · simp [Option.filter, (Node.same_of_placeless hnode).2.2.1, hl]
      · simp [Option.filter, (Node.same_of_placeless hnode).2.2.1, hl, hnode]

theorem blockBody_uniform : Uniform (blockBody limit inner) (blockBody limit other) := by
  refine (blockArguments_uniform limit).bind fun arguments arguments' harguments => ?_
  refine (temporaries_uniform limit).bind fun declared declared' hdeclared => ?_
  refine (statements_uniform h limit).bind fun body body' hbody => .pure (congrArg some ?_)
  apply appendAll_bare_congr
  simp only [List.map_append, map_toList_congr harguments, map_toList_congr hbody,
    map_toList_congr (filter_isLeaf_congr hdeclared)]

theorem blockConstructor_uniform :
    Uniform (blockConstructor limit inner) (blockConstructor limit other) := by
  refine (accept_uniform .leftSquareBracket).bindOption (.pure rfl) ?_
  intro opening opening' _
  refine (blockBody_uniform h limit).bind fun body body' hbody => ?_
  refine (expect_parallel .rightSquareBracket _).bind fun closing closing' _ => ?_
  refine .pure (congrArg some ?_)
  rw [Node.withSpan_placeless, Node.withSpan_placeless]
  cases body with
  | none =>
      obtain rfl := Option.map_eq_none_iff.mp hbody
      rfl
  | some block =>
      obtain ⟨block', rfl, hblock⟩ := Option.map_eq_some_iff.mp hbody
      exact hblock

theorem parenthesised_uniform : Uniform (parenthesised inner) (parenthesised other) := by
  refine (accept_uniform .leftParenthesis).bindOption (.pure rfl) ?_
  intro opening opening' hopening
  refine h.bindOption (missingExpression_parallel hopening) ?_
  intro value value' hvalue
  exact (expect_parallel .rightParenthesis _).bind fun _ _ _ => .pure (congrArg some hvalue)

theorem primary_uniform : Uniform (primary limit inner) (primary limit other) := by
  have hfound : ∀ value value' : Node, value'.placeless = value.placeless →
      Uniform (pure (some value)) (pure (some value')) :=
    fun _ _ hvalue => .pure (congrArg some hvalue)
  refine (accept_uniform .identifier).bindOption ?_ hfound
  refine literal_uniform.bindOption ?_ hfound
  exact (blockConstructor_uniform h limit).bindOption (parenthesised_uniform h) hfound

/-! ### Messages and expressions -/

theorem binaryMessage_uniform :
    Uniform (binaryMessage limit inner) (binaryMessage limit other) := by
  refine followedBy_parallel .binary (primary_uniform h limit) ?_
  intro selector selector' argument argument' hselector hargument
  rw [Node.append_placeless, Node.append_placeless, hselector, hargument]

theorem keywordSegment_parallel :
    Parallel (Option.map (Prod.map Node.placeless Node.placeless)) (keywordSegment limit inner)
      (keywordSegment limit other) := by
  refine followedBy_parallel .keyword (primary_uniform h limit) ?_
  intro selector selector' argument argument' hselector hargument
  exact Prod.ext hselector hargument

theorem keywordMessage_uniform :
    Uniform (keywordMessage limit inner) (keywordMessage limit other) := by
  refine (keywordSegment_parallel h limit).bindOption (.pure rfl) ?_
  intro first first' hfirst
  apply (many_parallel (keywordSegment_parallel h limit) limit).bind
  intro others others' hothers
  refine .pure (congrArg some ?_)
  obtain ⟨hselector, hargument⟩ := Prod.ext_iff.mp hfirst
  simp only [Prod.map_fst, Prod.map_snd] at hselector hargument
  rw [foldl_addSegment_placeless, foldl_addSegment_placeless, hothers, Node.append_placeless,
    Node.append_placeless, hselector, hargument]

theorem messages_uniform : Uniform (messages limit inner) (messages limit other) := by
  refine (many_parallel (accept_uniform .identifier) limit).bind fun unary unary' hunary => ?_
  refine (many_parallel (binaryMessage_uniform h limit) limit).bind fun binary binary' hbinary => ?_
  refine (keywordMessage_uniform h limit).bind fun last last' hlast => ?_
  have hrun : (unary' ++ binary' ++ last'.toList).map Node.placeless =
      (unary ++ binary ++ last.toList).map Node.placeless := by
    simp only [List.map_append, hunary, hbinary, map_toList_congr hlast]
  generalize unary ++ binary ++ last.toList = run, unary' ++ binary' ++ last'.toList = run' at hrun
  cases run with
  | nil =>
      obtain rfl := List.map_eq_nil_iff.mp hrun
      exact .pure rfl
  | cons first others =>
      obtain ⟨first', others', rfl, -, -⟩ := List.map_eq_cons_iff.mp hrun
      exact .pure (congrArg some (appendAll_bare_congr .messages _ _ hrun))

theorem cascade_uniform : Uniform (cascade limit inner) (cascade limit other) :=
  followedBy_parallel .semicolon (messages_uniform h limit) fun _ _ _ _ _ hrun => hrun

theorem basicExpression_uniform :
    Uniform (basicExpression limit inner) (basicExpression limit other) := by
  refine (primary_uniform h limit).bindOption (.pure rfl) ?_
  intro receiver receiver' hreceiver
  refine (messages_uniform h limit).bind fun run run' hrun => ?_
  refine (many_parallel (cascade_uniform h limit) limit).bind fun cascaded cascaded' hcascaded => ?_
  refine .pure (congrArg some (appendAll_bare_congr .expression _ _ ?_))
  simp only [List.map_cons, List.map_append, hreceiver, map_toList_congr hrun, hcascaded]

theorem assignment_uniform : Uniform (assignment inner) (assignment other) := by
  refine (accept_uniform .identifier).bindOption (.pure rfl) ?_
  intro name name' hname
  refine (accept_uniform .assignment).bindOption ?_ ?_
  · exact (unread_parallel hname).bind fun _ _ _ => .pure rfl
  · intro sign sign' hsign
    refine h.bindOption (missingExpression_parallel hsign) ?_
    intro value value' hvalue
    refine .pure (congrArg some ?_)
    simp only [Node.append_placeless, hsign, hname, hvalue]

theorem expressionStep_uniform :
    Uniform (expressionStep limit inner) (expressionStep limit other) := by
  refine (assignment_uniform h).bindOption (basicExpression_uniform h limit) ?_
  intro node node' hnode
  exact .pure (congrArg some hnode)

omit h in
theorem expressionUpTo_uniform : Uniform (expressionUpTo limit) (expressionUpTo limit) := by
  induction limit with
  | zero => exact .pure rfl
  | succ limit ih => exact expressionStep_uniform ih (limit + 1)

/-! ### Programs -/

omit h in
/-- The readers of programs get a bound from their streams, which may differ in size. -/
theorem program_corresponds {s s' : TokenStream} (hs : AlikeAhead s s') :
    Corresponds (Option.map Node.placeless) (Rule.program.reader s) (Rule.program.reader s') := by
  obtain ⟨hplain, hplain', -⟩ := id hs
  let limit := s.size + s'.size + 1
  have hlt : s.size < limit := by omega
  have hlt' : s'.size < limit := by omega
  rw [program_reader_eq hplain hlt, program_reader_eq hplain' hlt']
  exact statements_uniform (expressionUpTo_uniform limit) limit s s' hs

end Grammar

open Grammar

/-- Two sources are parsed to the same program up to positions, with the same tokens left over, or
fail for the same cause. -/
inductive ParsedAlike : Except SyntaxFault Parsed → Except SyntaxFault Parsed → Prop where
  | ok {parsed other : Parsed} :
      other.program.map Node.placeless = parsed.program.map Node.placeless →
      Alike parsed.rest other.rest → ParsedAlike (.ok parsed) (.ok other)
  | error {fault other : SyntaxFault} : other.cause = fault.cause →
      ParsedAlike (.error fault) (.error other)

theorem parseProgram_alike {source other : String} {tokens others : List Node}
    (ht : tokenize source = .ok tokens) (ho : tokenize other = .ok others)
    (ha : Alike tokens others) : ParsedAlike (parseProgram source) (parseProgram other) := by
  have hs : AlikeAhead (.ofString source) (.ofString other) :=
    ⟨TokenStream.plain_ofString source, TokenStream.plain_ofString other, tokens, others,
      tokenize_eq_ok_iff.mp ht, tokenize_eq_ok_iff.mp ho, ha⟩
  have hprogram := program_corresponds hs
  simp only [parseProgram, parse, bind, EStateM.bind]
  generalize Rule.program.reader (.ofString source) = result,
    Rule.program.reader (.ofString other) = result' at hprogram
  cases hprogram with
  | error hcause => exact .error hcause
  | ok hvalue hbehind =>
      obtain ⟨hp, hp', left, left', hv, hv', hleft⟩ := hbehind
      obtain ⟨last, hr, -, -⟩ := remaining_returns left _ hp hv
      obtain ⟨last', hr', -, -⟩ := remaining_returns left' _ hp' hv'
      simp only [hr, hr', pure, EStateM.pure]
      exact .ok hvalue hleft

end MiniSmalltalk
