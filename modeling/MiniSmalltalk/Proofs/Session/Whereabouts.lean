import MiniSmalltalk.Proofs.Session.Faults
import MiniSmalltalk.Proofs.Session.Location
import MiniSmalltalk.Proofs.Session.Remainder
import MiniSmalltalk.Proofs.Token.Placement
import MiniSmalltalk.Report.Diagnostic

/-! # Where a single run points

A run that nothing has gone before points into its own source and nowhere else: a lexical fault at
the characters it is about, a syntax fault at one of the tokens or at the end, and a run-time fault
at a node of the program. -/

namespace MiniSmalltalk

open Token

/-! ### Stretches of a source -/

/-- A span of whole characters that covers at least one. -/
structure Span.Marks (source : String) (span : Span) : Prop extends span.Covers source where
  proper : span.start < span.stop

theorem Span.region_marks {source : String} : Span.Region (Span.Marks source) := by
  constructor
  intro a b ha hb
  have hstart : (a.merge b).start < (a.merge b).stop := by
    have hproper := ha.proper
    simp only [merge_start, merge_stop]
    omega
  refine ⟨⟨Nat.le_of_lt hstart, Nat.max_le.mpr ⟨ha.inside, hb.inside⟩, ?_, ?_⟩, hstart⟩
  · rcases Nat.le_total a.start b.start with hle | hle
    · rw [merge_start, Nat.min_eq_left hle]
      exact ha.start
    · rw [merge_start, Nat.min_eq_right hle]
      exact hb.start
  · rcases Nat.le_total a.stop b.stop with hle | hle
    · rw [merge_stop, Nat.max_eq_right hle]
      exact hb.stop
    · rw [merge_stop, Nat.max_eq_left hle]
      exact ha.stop

theorem Slice.marks {source : String} {span : Span} {cs : List Char} (h : Slice source span cs)
    (hne : cs ≠ []) : span.Marks source := by
  refine ⟨h.covers, ?_⟩
  obtain ⟨before, behind, -, rfl⟩ := h
  exact Nat.lt_add_of_pos_right (byteLength_pos hne)

/-! ### Tokens and programs -/

/-- A token of a source, as it is written there. -/
def Node.WrittenIn (source : String) (token : Node) : Prop :=
  token.isLeaf = true ∧
    ∃ lexeme, Slice source token.span lexeme ∧ Spelling token.kind token.text lexeme

theorem Node.WrittenIn.marks {source : String} {token : Node} (h : token.WrittenIn source) :
    token.span.Marks source := by
  obtain ⟨-, lexeme, hslice, hspelling⟩ := h
  exact hslice.marks hspelling.ne_nil

section

variable {source : String}

theorem writtenIn_of_tokenize {tokens : List Node} (h : tokenize source = .ok tokens) :
    ∀ token ∈ tokens, token.WrittenIn source :=
  @Tiled.tokens_spelled source [] _ _ (tiled_of_tokenize h) rfl

theorem program_marks {parsed : Parsed} {tree : Node} (h : parseProgram source = .ok parsed)
    (ht : parsed.program = some tree) : ∀ node, tree.Contains node → node.span.Marks source := by
  obtain ⟨consumed, htokens, hd⟩ := Grammar.parseProgram_consumed h
  have hproper : ∀ token ∈ consumed, token.Proper (Span.Marks source) fun _ => false := by
    intro token hm
    exact ⟨(writtenIn_of_tokenize htokens token (List.mem_append_left _ hm)).marks, by simp⟩
  have htree := (hd tree ht).everywhere Span.region_marks hproper
  exact fun node hc => (Node.everywhere_iff_contains.mp htree node hc).span

theorem unparsed_covers {parsed : Parsed} (h : parseProgram source = .ok parsed) :
    ∀ notice ∈ unparsedNotices source parsed, notice.span.Covers source := by
  obtain ⟨consumed, htokens, -⟩ := Grammar.parseProgram_consumed h
  intro notice hm
  unfold unparsedNotices at hm
  split at hm
  · cases hm
  · rename_i first rest hrest
    obtain rfl := List.mem_singleton.mp hm
    have hfirst := (writtenIn_of_tokenize htokens first (by simp [hrest])).marks
    exact ⟨Nat.le_trans hfirst.ordered hfirst.inside, Nat.le_refl _, hfirst.start,
      boundary_end source⟩

end

/-! ### Evaluations -/

def Node.Spans (tree : Node) (span : Span) : Prop := ∃ node, tree.Contains node ∧ node.span = span

open Classical in
/-- The view that puts every span elsewhere that no node of a tree has. -/
noncomputable def View.within (tree : Node) : View :=
  ⟨fun span => if tree.Spans span then span else tree.span, fun _ => false⟩

theorem View.within_place_eq_iff {tree : Node} {span : Span} :
    (within tree).place span = span ↔ tree.Spans span := by
  by_cases hs : tree.Spans span
  · simp [within, hs]
  · refine iff_of_false ?_ hs
    intro hp
    have hroot : tree.span = span := by simpa [within, hs] using hp
    exact hs ⟨tree, .root, hroot⟩

theorem View.within_node (tree : Node) : (within tree).node tree = tree := by
  refine Node.relocate_of_everywhere _ (Node.everywhere_iff_contains.mpr ?_)
  exact fun node hc => within_place_eq_iff.mpr ⟨node, hc, rfl⟩

/-- An evaluation that nothing has gone before has no spans but those of its tree. -/
theorem evaluation_points_into_tree (depth : Nat) (tree : Node) :
    (∀ fault behind, evaluate depth (some tree) (some 0) .initial = .error (.fault fault) behind →
      tree.Spans fault.span) ∧
    ∀ notice ∈ (Eval.left (evaluate depth (some tree) (some 0) .initial)).notices,
      tree.Spans notice.span := by
  -- Neither the tree nor the machine moves, so nothing that comes of them moves either.
  obtain ⟨hseen, -⟩ := @evaluate_seen (.within tree) depth (some tree)
    (fun node _ => node.avoids_nothing) (some 0) .initial (.of_holding (Machine.avoids_nothing _))
  rw [Option.map_some, View.within_node, View.machine_initial] at hseen
  generalize evaluate depth (some tree) (some 0) .initial = result at hseen
  cases result with
  | ok value behind =>
      have hbehind := (EStateM.Result.ok.inj hseen).2.symm
      refine ⟨by simp, ?_⟩
      exact fun notice hm => View.within_place_eq_iff.mp (View.place_of_machine hbehind notice hm)
  | error halt behind =>
      obtain ⟨hhalt, hbehind⟩ := EStateM.Result.error.inj hseen
      refine ⟨?_, ?_⟩
      · rintro fault last ⟨⟩
        exact View.within_place_eq_iff.mp (View.place_of_halt hhalt.symm)
      · exact fun notice hm =>
          View.within_place_eq_iff.mp (View.place_of_machine hbehind.symm notice hm)

/-! ### Failures -/

def FailureCause.span : FailureCause → Span
  | lexical fault => fault.span
  | grammatical fault => fault.span
  | runtime fault => fault.span

/-- Where a source fails. A lexical fault covers what it is about, behind the tokens that are read
before it. A syntax fault lies with a token or at the end of the source. A run-time fault has the
span of a node of the program. -/
inductive FailureCause.Located (source : String) : FailureCause → Prop where
  | lexical {tokens : List Node} {fault : LexicalFault} :
      (TokenStream.ofString source).drain = (tokens, some fault) → fault.Located source tokens →
      Located source (.lexical fault)
  | ended (expected : String) :
      Located source (.grammatical ⟨.unexpectedEnd expected, .point source.utf8ByteSize⟩)
  | refused {cause : SyntaxCause} {token : Node} : cause.AtToken →
      token ∈ (TokenStream.ofString source).drain.1 → token.WrittenIn source →
      Located source (.grammatical ⟨cause, token.span⟩)
  | runtime {fault : RuntimeFault} {parsed : Parsed} {tree : Node} :
      parseProgram source = .ok parsed → parsed.program = some tree → tree.Spans fault.span →
      fault.span.Marks source → Located source (.runtime fault)

namespace FailureCause.Located

variable {source : String} {cause : FailureCause}

theorem covers (h : cause.Located source) : cause.span.Covers source := by
  cases h with
  | lexical _ hl =>
      obtain ⟨cs, hslice⟩ := hl.covers.slice
      exact hslice.covers
  | ended => exact Span.covers_end source
  | refused _ _ ht => exact ht.marks.toCovers
  | runtime _ _ _ hm => exact hm.toCovers

/-- Reports point at the part of the source that the fault records, at its end too. -/
theorem spanIn_eq (h : cause.Located source) : cause.spanIn source = cause.span := by
  cases h with
  | lexical | ended | runtime => rfl
  | refused hc => cases hc <;> rfl

theorem ofSyntax {fault : SyntaxFault} (h : parseProgram source = .error fault) :
    (FailureCause.ofSyntax fault).Located source := by
  have hs := TokenStream.plain_ofString source
  cases hdrain : (TokenStream.ofString source).drain with
  | mk tokens found =>
      have hmem : ∀ token ∈ tokens, token ∈ (TokenStream.ofString source).drain.1 := by
        simp [hdrain]
      cases found with
      | none =>
          have htokens : tokenize source = .ok tokens := by rw [tokenize, hdrain]
          obtain ⟨behind, hparse⟩ := parse_of_parseProgram_error h
          rcases Grammar.parse_error_of_tokens hs (tokenize_eq_ok_iff.mp htokens) hparse with
            ⟨hcause, token, hm, hspan⟩ | ⟨expected, rfl⟩
          · obtain ⟨cause, span⟩ := fault
            obtain rfl := hspan
            have hwritten := writtenIn_of_tokenize htokens token hm
            cases hcause <;> exact .refused (by constructor) (hmem token hm) hwritten
          · rw [TokenStream.stop_ofString]
            exact .ended expected
      | some inner =>
          obtain ⟨later, hahead⟩ := drain_eq_fault_iff.mp hdrain
          have hlocated := located_of_ahead hahead
          rcases parseProgram_of_fault hdrain with hp | ⟨cause, hcause, token, hm, hp, -⟩
          · obtain rfl := Except.error.inj (h.symm.trans hp)
            exact .lexical hdrain hlocated
          · obtain rfl := Except.error.inj (h.symm.trans hp)
            have hwritten := hlocated.spelled token hm
            cases hcause <;> exact .refused (by constructor) (hmem token hm) hwritten

end FailureCause.Located

/-! ### Runs -/

section

variable {source : String} {parsed : Parsed} (h : parseProgram source = .ok parsed) (depth : Nat)

include h

/-- The notices of a run are the one on what was left over, if anything was, and those of the
evaluation. -/
theorem run_of_parsed :
    (run depth source).outcome = (Interpretation.conclude ⟨"", source⟩
        (evaluate depth parsed.program (some 0) .initial)).outcome ∧
      (run depth source).machine.notices = unparsedNotices source parsed ++
        (Eval.left (evaluate depth parsed.program (some 0) .initial)).notices := by
  have hrun : run depth source = _ :=
    @interpret_following ⟨"", source⟩ parsed h depth 0 .initial
  rw [conclude_following] at hrun
  rw [hrun, Task.conclude_machine]
  exact ⟨rfl, rfl⟩

theorem failure_located {failure : Failure} (hf : (run depth source).outcome = .failure failure) :
    failure.file = ⟨"", source⟩ ∧ failure.cause.Located source := by
  rw [(run_of_parsed h depth).1] at hf
  cases hprogram : parsed.program with
  | none =>
      rw [hprogram] at hf
      cases hf
  | some tree =>
      rw [hprogram] at hf
      obtain ⟨hpoints, -⟩ := evaluation_points_into_tree depth tree
      generalize evaluate depth (some tree) (some 0) .initial = result at hf hpoints
      cases result with
      | ok value behind => cases hf
      | error halt behind =>
          cases halt with
          | tooDeep => cases hf
          | fault fault =>
              obtain rfl := Outcome.failure.inj hf
              obtain ⟨node, hc, hspan⟩ := hpoints fault behind rfl
              have hmarks := program_marks h hprogram node hc
              exact ⟨rfl, .runtime h hprogram ⟨node, hc, hspan⟩ (hspan ▸ hmarks)⟩

theorem notices_cover : ∀ notice ∈ (run depth source).machine.notices,
    notice.span.Covers source := by
  rw [(run_of_parsed h depth).2]
  refine List.forall_mem_append.mpr ⟨unparsed_covers h, ?_⟩
  cases hprogram : parsed.program with
  | none => exact List.forall_mem_nil _
  | some tree =>
      intro notice hm
      obtain ⟨node, hc, hspan⟩ := (evaluation_points_into_tree depth tree).2 notice hm
      exact hspan ▸ (program_marks h hprogram node hc).toCovers

end

/-- Every failure and every warning of a single run points at whole characters of its source. A
lexical fault covers the character that begins no token, or everything from the delimiter of a
literal or comment without end. A syntax fault has the span of a token, or it lies at the end of
the source. A run-time fault has the span of a node of the program, which covers a character at
least. A report on a failure points where the fault itself does. -/
theorem run_reports_located (depth : Nat) (source : String) :
    (∀ failure, (run depth source).outcome = .failure failure →
      failure.file = ⟨"", source⟩ ∧ failure.cause.Located source ∧
      failure.cause.span.Covers source ∧
      failure.diagnostic.location = some ⟨⟨"", source⟩,
        ⟨some failure.cause.wording.title, failure.cause.span⟩, []⟩) ∧
    ∀ warning ∈ (run depth source).warnings,
      warning.file = ⟨"", source⟩ ∧ warning.notice.span.Covers source := by
  have hrun : run depth source = interpret depth ⟨"", source⟩ 0 .initial := rfl
  constructor
  · intro failure hf
    obtain ⟨hfile, hlocated⟩ : failure.file = ⟨"", source⟩ ∧ failure.cause.Located source := by
      cases hp : parseProgram source with
      | ok parsed => exact failure_located hp depth hf
      | error fault =>
          rw [hrun, interpret, hp] at hf
          obtain rfl := Outcome.failure.inj hf
          exact ⟨rfl, .ofSyntax hp⟩
    refine ⟨hfile, hlocated, hlocated.covers, ?_⟩
    rw [Failure.diagnostic, hfile, hlocated.spanIn_eq]
  · intro warning hw
    obtain ⟨notice, hm, rfl⟩ := List.mem_map.mp hw
    refine ⟨?_, ?_⟩
    · rw [hrun, interpret_file]
    · cases hp : parseProgram source with
      | ok parsed => exact notices_cover hp depth notice hm
      | error fault =>
          rw [hrun, interpret, hp] at hm
          cases hm

def Outcome.failure? : Outcome → Option Failure
  | .failure found => some found
  | _ => none

theorem Outcome.eq_of_failure? {outcome : Outcome} {failure : Failure}
    (h : outcome.failure? = some failure) : outcome = .failure failure := by
  cases outcome <;> simp_all [failure?]

/-- A fault of each phase behind a character of two bytes, and a source with both warnings. -/
theorem run_reports_located_two_bytes :
    ((run 9 "'é' é").outcome =
        .failure ⟨⟨"", "'é' é"⟩, .lexical ⟨.unknownCharacter 'é', ⟨5, 7⟩, 1, 6⟩⟩ ∧
      Slice "'é' é" ⟨5, 7⟩ ['é']) ∧
    (∃ expected, (run 9 "['é' size").outcome =
        .failure ⟨⟨"", "['é' size"⟩, .grammatical ⟨.unexpectedEnd expected, .point 10⟩⟩ ∧
      (Span.point 10).Covers "['é' size") ∧
    ((run 9 "'é' foo").outcome =
        .failure ⟨⟨"", "'é' foo"⟩, .runtime ⟨.noSuchOperation "foo" "foo" .string, ⟨5, 8⟩⟩⟩ ∧
      ∃ parsed tree, parseProgram "'é' foo" = .ok parsed ∧ parsed.program = some tree ∧
        tree.Spans ⟨5, 8⟩) ∧
    (run 9 "[x := 3] value. x foo:= 'é'").warnings.map (·.notice.span) = [⟨21, 28⟩, ⟨1, 2⟩] ∧
      ∀ warning ∈ (run 9 "[x := 3] value. x foo:= 'é'").warnings,
        warning.notice.span.Covers "[x := 3] value. x foo:= 'é'" := by
  have hlexical : (run 9 "'é' é").outcome =
      .failure ⟨⟨"", "'é' é"⟩, .lexical ⟨.unknownCharacter 'é', ⟨5, 7⟩, 1, 6⟩⟩ :=
    Outcome.eq_of_failure? (by decide +kernel)
  have hended : (run 9 "['é' size").outcome = .failure ⟨⟨"", "['é' size"⟩,
      .grammatical ⟨.unexpectedEnd "`]` at the end of a block", .point 10⟩⟩ :=
    Outcome.eq_of_failure? (by decide +kernel)
  have hruntime : (run 9 "'é' foo").outcome =
      .failure ⟨⟨"", "'é' foo"⟩, .runtime ⟨.noSuchOperation "foo" "foo" .string, ⟨5, 8⟩⟩⟩ :=
    Outcome.eq_of_failure? (by decide +kernel)
  obtain ⟨-, hl, -⟩ := (run_reports_located 9 "'é' é").1 _ hlexical
  obtain ⟨-, -, he, -⟩ := (run_reports_located 9 "['é' size").1 _ hended
  obtain ⟨-, hr, -⟩ := (run_reports_located 9 "'é' foo").1 _ hruntime
  refine ⟨⟨hlexical, ?_⟩, ⟨_, hended, he⟩, ⟨hruntime, ?_⟩, by decide +kernel, ?_⟩
  · cases hl with
    | lexical _ h => exact h.covers
  · cases hr with
    | runtime hp ht hs _ => exact ⟨_, _, hp, ht, hs⟩
  · exact fun warning hw =>
      ((run_reports_located 9 "[x := 3] value. x foo:= 'é'").2 warning hw).2

end MiniSmalltalk
