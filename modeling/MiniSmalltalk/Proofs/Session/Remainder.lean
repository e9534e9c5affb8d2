import MiniSmalltalk.Proofs.Evaluation.Sequence
import MiniSmalltalk.Proofs.Session.Stability
import MiniSmalltalk.Proofs.Token.Truncation

/-! # What follows a program

Tokens behind a program are remarked on and have no influence otherwise: the source is
interpreted as if it had ended where the first of them begins. -/

namespace MiniSmalltalk

/-! ### Notices of an evaluation -/

inductive Notice.OfEvaluation : Notice → Prop where
  | implicitDeclaration (name : String) (span : Span) :
      OfEvaluation (.implicitDeclaration name span)

namespace Regime

/-- Notices are only ever added, and only such as evaluation may give. -/
def remarking : Regime where
  holds _ := True
  frame _ _ := True
  later machine behind :=
    ∃ added, behind.notices = machine.notices ++ added ∧ ∀ notice ∈ added, notice.OfEvaluation
  change := id
  cut _ _ := False

theorem remarking_lawful : remarking.Lawful where
  later_refl _ := ⟨[], by simp, by simp⟩
  later_trans := by
    rintro first second third ⟨added, hadded, hall⟩ ⟨more, hmore, hall'⟩
    refine ⟨added ++ more, by rw [hmore, hadded, List.append_assoc], ?_⟩
    exact List.forall_mem_append.mpr ⟨hall, hall'⟩
  frame_later _ _ := trivial
  cut_later hcut _ := hcut
  read _ _ _ := by
    refine ⟨rfl, fun value _ => ?_⟩
    cases value <;> trivial
  store := by
    intro machine id value _ _ _ name span
    refine ⟨rfl, trivial, ?_⟩
    simp only [remarking, Machine.store]
    split
    · refine ⟨_, rfl, ?_⟩
      intro notice hm
      obtain rfl := List.mem_singleton.mp hm
      exact .implicitDeclaration name span
    · exact ⟨[], by simp, by simp⟩
  enter _ _ _ := ⟨rfl, ⟨trivial, [], by simp [Machine.pushFrame], by simp⟩, trivial⟩
  count _ := ⟨rfl, rfl, trivial, [], by simp, by simp⟩
  display _ _ := ⟨rfl, trivial, [], by simp, by simp⟩

end Regime

theorem evaluate_notices (depth : Nat) (tree : Option Node) (frame : FrameId)
    (machine : Machine) :
    ∃ added, (Eval.left (evaluate depth tree (some frame) machine)).notices =
      machine.notices ++ added ∧ ∀ notice ∈ added, notice.OfEvaluation :=
  (Regime.remarking_lawful.evaluate_obeys depth tree
    (Regime.remarking_lawful.pure trivial trivial)).after_left.2

/-- What was shown and remarked before an evaluation stays in front of its own output. -/
theorem evaluate_following (depth : Nat) (tree : Option Node) (frame : FrameId)
    (machine earlier : Machine) :
    evaluate depth tree (some frame) (machine.following earlier) =
      (Regime.following earlier).exchange (evaluate depth tree (some frame) machine) := by
  have law := Regime.following_lawful earlier
  exact (law.evaluate_obeys depth tree (law.pure trivial trivial)).eq_exchange fun _ _ hcut => hcut

/-! ### Interpretations -/

def Outcome.about (file : SourceFile) : Outcome → Outcome
  | .failure ⟨_, cause⟩ => .failure ⟨file, cause⟩
  | outcome => outcome

/-- A machine with a notice in front of its own. -/
def Machine.remarked (machine : Machine) (notice : Notice) : Machine :=
  { machine with notices := notice :: machine.notices }

theorem Machine.following_quiet (machine start : Machine) (notice : Notice) :
    machine.following (start.quiet.remarked notice) = machine.remarked notice := by
  simp [following, remarked, quiet, Transcript.append, Transcript.empty]

theorem conclude_following (file : SourceFile) (earlier : Machine)
    (result : EStateM.Result Halt Machine Value) :
    Interpretation.conclude file ((Regime.following earlier).exchange result) =
      { Interpretation.conclude file result with
        machine := (Interpretation.conclude file result).machine.following earlier } := by
  cases result with
  | ok value behind => rfl
  | error halt behind => cases halt <;> rfl

theorem conclude_about (file other : SourceFile) (result : EStateM.Result Halt Machine Value) :
    Interpretation.conclude file result =
      ⟨file, (Interpretation.conclude other result).outcome.about file,
        (Interpretation.conclude other result).machine⟩ := by
  cases result with
  | ok value behind => rfl
  | error halt behind => cases halt <;> rfl

/-- What is left over is remarked on in front of the output of the evaluation, and has no influence
on the evaluation. -/
theorem interpret_following {file : SourceFile} {parsed : Parsed}
    (h : parseProgram file.text = .ok parsed) (depth : Nat) (frame : FrameId) (machine : Machine) :
    interpret depth file frame machine =
      .conclude file ((Regime.following
        { machine.quiet with notices := unparsedNotices file.text parsed }).exchange
          (evaluate depth parsed.program (some frame) machine.quiet)) := by
  have hready : { machine.quiet with notices := unparsedNotices file.text parsed } =
      machine.quiet.following
        { machine.quiet with notices := unparsedNotices file.text parsed } := by
    simp [Machine.following, Machine.quiet, Transcript.append, Transcript.empty]
  rw [interpret_of_parsed h, ← evaluate_following, ← hready]

theorem interpret_of_whole {file : SourceFile} {program : Option Node}
    (h : parseProgram file.text = .ok ⟨program, []⟩) (depth : Nat) (frame : FrameId)
    (machine : Machine) :
    interpret depth file frame machine =
      .conclude file (evaluate depth program (some frame) machine.quiet) :=
  interpret_of_parsed h depth frame machine

/-- A source that is parsed as a whole gives no notice about its end. -/
theorem unparsedInput_not_mem {file : SourceFile} {program : Option Node}
    (h : parseProgram file.text = .ok ⟨program, []⟩) (depth : Nat) (frame : FrameId)
    (machine : Machine) (span : Span) :
    .unparsedInput span ∉ (interpret depth file frame machine).machine.notices := by
  obtain ⟨added, hadded, hall⟩ := evaluate_notices depth program frame machine.quiet
  rw [interpret_of_whole h, Task.conclude_machine, hadded]
  intro hm
  cases hall _ (by simpa [Machine.quiet] using hm)

/-- What follows a program adds a notice to the interpretation of the program alone. -/
theorem interpret_remarked {file cut : SourceFile} {parsed : Parsed} {first : Node}
    {others : List Node} (h : parseProgram file.text = .ok parsed)
    (hr : parsed.rest = first :: others)
    (hc : parseProgram cut.text = .ok ⟨parsed.program, []⟩) (depth : Nat) (frame : FrameId)
    (machine : Machine) :
    interpret depth file frame machine =
      ⟨file, (interpret depth cut frame machine).outcome.about file,
        (interpret depth cut frame machine).machine.remarked
          (.unparsedInput ⟨first.span.start, file.text.utf8ByteSize⟩)⟩ := by
  have hnotices : unparsedNotices file.text parsed =
      [.unparsedInput ⟨first.span.start, file.text.utf8ByteSize⟩] := by
    rw [unparsedNotices, hr]
  rw [interpret_of_whole hc, interpret_following h, hnotices, conclude_following,
    conclude_about file cut]
  exact congrArg (Interpretation.mk file _) (Machine.following_quiet _ machine _)

/-! ### Truncated sources -/

/-- The file with only the first bytes of its text. -/
def SourceFile.upTo (file : SourceFile) (bytes : Nat) : SourceFile :=
  { file with text := truncate file.text bytes }

/-- Cut off behind its program, a source is parsed as a whole and to the same program. -/
theorem parseProgram_upTo {file : SourceFile} {parsed : Parsed} {first : Node}
    {others : List Node} (h : parseProgram file.text = .ok parsed)
    (hr : parsed.rest = first :: others) :
    (file.upTo first.span.start).text.utf8ByteSize = first.span.start ∧
      parseProgram (file.upTo first.span.start).text = .ok ⟨parsed.program, []⟩ := by
  simp only [SourceFile.upTo]
  cases hp : parsed.program with
  | some tree =>
      obtain ⟨consumed, htokens, hd⟩ := Grammar.parseProgram_of_some h hp
      rw [hr] at htokens
      obtain ⟨hcut, hsize⟩ := tokenize_truncate htokens
      exact ⟨hsize, parseProgram_of_derivation hcut hd⟩
  | none =>
      have htokens := Grammar.parseProgram_of_none h hp
      rw [hr] at htokens
      obtain ⟨hcut, hsize⟩ := @tokenize_truncate file.text [] first others htokens
      exact ⟨hsize, parseProgram_of_nil hcut⟩

/-- What follows a program is ignored. A source that is parsed as a whole gives no notice about
its end. Any other gives exactly one, in front of all others, from the first token behind the
program to its end; all else is as if the source had ended where that token begins. -/
theorem unparsed_input_ignored (file : SourceFile) (parsed : Parsed)
    (h : parseProgram file.text = .ok parsed) (depth : Nat) (frame : FrameId)
    (machine : Machine) :
    (parsed.rest = [] → ∀ span,
      .unparsedInput span ∉ (interpret depth file frame machine).machine.notices) ∧
    ∀ first others, parsed.rest = first :: others →
      ((file.upTo first.span.start).text.utf8ByteSize = first.span.start ∧
        parseProgram (file.upTo first.span.start).text = .ok ⟨parsed.program, []⟩) ∧
      (interpret depth file frame machine).outcome =
        (interpret depth (file.upTo first.span.start) frame machine).outcome.about file ∧
      (interpret depth file frame machine).machine =
        (interpret depth (file.upTo first.span.start) frame machine).machine.remarked
          (.unparsedInput ⟨first.span.start, file.text.utf8ByteSize⟩) ∧
      ∀ span, .unparsedInput span ∉
        (interpret depth (file.upTo first.span.start) frame machine).machine.notices := by
  refine ⟨?_, ?_⟩
  · intro hrest
    obtain ⟨program, rest⟩ := parsed
    obtain rfl : rest = [] := hrest
    exact unparsedInput_not_mem h depth frame machine
  · intro first others hrest
    have hfront := parseProgram_upTo h hrest
    have hnone := unparsedInput_not_mem hfront.2 depth frame machine
    refine ⟨hfront, ?_, ?_, hnone⟩
    · rw [interpret_remarked h hrest hfront.2]
    · rw [interpret_remarked h hrest hfront.2]

/-- A sign is read at once with the name in front of it, and the cut falls between the two. -/
theorem unparsed_input_ignored_sign :
    (∃ parsed, parseProgram "x" = .ok parsed ∧ parsed.rest = [] ∧
      ∀ span, .unparsedInput span ∉ (interpret 9 ⟨"", "x"⟩ 0 .initial).machine.notices) ∧
    ∃ parsed, parseProgram "x := 3. x foo:= 'é'" = .ok parsed ∧
      parsed.rest.map Node.span = [⟨13, 15⟩, ⟨16, 20⟩] ∧
      (interpret 9 ⟨"", "x := 3. x foo:= 'é'"⟩ 0 .initial).outcome =
        (interpret 9 (SourceFile.upTo ⟨"", "x := 3. x foo:= 'é'"⟩ 13) 0 .initial).outcome.about
          ⟨"", "x := 3. x foo:= 'é'"⟩ := by
  have hspans : (parseProgram "x").toOption.map (fun parsed => parsed.rest.map Node.span) =
      some [] := by decide +kernel
  have hspans' : (parseProgram "x := 3. x foo:= 'é'").toOption.map
      (fun parsed => parsed.rest.map Node.span) = some [⟨13, 15⟩, ⟨16, 20⟩] := by decide +kernel
  have hparsed : ∀ {source : String} {spans : List Span},
      (parseProgram source).toOption.map (fun parsed => parsed.rest.map Node.span) = some spans →
      ∃ parsed, parseProgram source = .ok parsed ∧ parsed.rest.map Node.span = spans := by
    intro source spans h
    cases hp : parseProgram source with
    | error fault => simp [hp, Except.toOption] at h
    | ok parsed => exact ⟨parsed, rfl, by simpa [hp, Except.toOption] using h⟩
  refine ⟨?_, ?_⟩
  · obtain ⟨parsed, h, hrest⟩ := hparsed hspans
    have hnil : parsed.rest = [] := List.map_eq_nil_iff.mp hrest
    exact ⟨parsed, h, hnil, (unparsed_input_ignored ⟨"", "x"⟩ parsed h 9 0 .initial).1 hnil⟩
  · obtain ⟨parsed, h, hrest⟩ := hparsed hspans'
    refine ⟨parsed, h, hrest, ?_⟩
    obtain ⟨first, others, hcons, hfirst, -⟩ := List.map_eq_cons_iff.mp hrest
    have hcut := (unparsed_input_ignored ⟨"", "x := 3. x foo:= 'é'"⟩ parsed h 9 0 .initial).2
      first others hcons
    rw [hfirst] at hcut
    exact hcut.2.1

end MiniSmalltalk
