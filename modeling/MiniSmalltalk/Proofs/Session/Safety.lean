import MiniSmalltalk.Session.Interpret
import MiniSmalltalk.Proofs.Evaluation.Safety
import MiniSmalltalk.Proofs.Grammar.Parsing

/-! # Safety of sessions

Sources that are interpreted one after the other share a machine, so a later one may call
blocks of an earlier one. No step of a session stops at a node that the evaluator does not
know. -/

namespace MiniSmalltalk

/-- What a step of a session is given: how deep it may nest, and its source. -/
structure Input where
  depth : Nat
  file : SourceFile

/-- Interprets sources one after the other in the root frame. A step that fails leaves its
machine to the next one like any other. -/
def session (machine : Machine) : List Input → List Interpretation
  | [] => []
  | input :: inputs =>
      let step := interpret input.depth input.file 0 machine
      step :: session step.machine inputs

/-- An outcome that is not about a node the evaluator does not know. -/
def Outcome.Known (outcome : Outcome) : Prop :=
  ∀ file kind span, outcome ≠ .failure ⟨file, .runtime ⟨.unexpectedNode kind, span⟩⟩

theorem Outcome.known_ofSyntax (file : SourceFile) (fault : SyntaxFault) :
    (Outcome.failure ⟨file, .ofSyntax fault⟩).Known := by
  intro file' kind span h
  simp only [Outcome.failure.injEq, Failure.mk.injEq] at h
  have hcause := h.2
  unfold FailureCause.ofSyntax at hcause
  split at hcause <;> cases hcause

/-- The interpretation of a source whose program has come to a result. -/
def Interpretation.conclude (file : SourceFile) :
    EStateM.Result Halt Machine Value → Interpretation
  | .ok value machine => ⟨file, .value value, machine⟩
  | .error (.fault fault) machine => ⟨file, .failure ⟨file, .runtime fault⟩, machine⟩
  | .error .tooDeep machine => ⟨file, .tooDeep, machine⟩

theorem interpret_of_parsed {file : SourceFile} {parsed : Parsed}
    (h : parseProgram file.text = .ok parsed) (depth : Nat) (frame : FrameId)
    (machine : Machine) :
    interpret depth file frame machine =
      .conclude file (evaluate depth parsed.program (some frame)
        { machine.quiet with notices := unparsedNotices file.text parsed }) := by
  unfold interpret
  rw [h]
  dsimp only
  generalize evaluate depth parsed.program (some frame) _ = result
  cases result with
  | ok value behind => rfl
  | error halt behind => cases halt <;> rfl

theorem interpret_safe (depth : Nat) (file : SourceFile) (frame : FrameId) {machine : Machine}
    (hm : machine.Shaped) :
    (interpret depth file frame machine).machine.Shaped ∧
      (interpret depth file frame machine).outcome.Known := by
  cases hparsed : parseProgram file.text with
  | error fault =>
      unfold interpret
      rw [hparsed]
      exact ⟨hm, Outcome.known_ofSyntax file _⟩
  | ok parsed =>
      have hshape : ∀ node ∈ parsed.program, Shape .evaluated node := by
        intro node hn
        obtain ⟨tokens, hd⟩ := Grammar.parseProgram_derivation hparsed node hn
        exact hd.shape
      rw [interpret_of_parsed hparsed]
      generalize hready : Machine.mk _ _ _ _ = ready
      have hshaped : ready.Shaped := by
        rw [← hready]
        exact hm
      have hend := evaluate_safe depth hshape frame ready hshaped
      cases hr : evaluate depth parsed.program (some frame) ready with
      | ok value behind =>
          rw [hr] at hend
          exact ⟨hend.1, by simp [Interpretation.conclude, Outcome.Known]⟩
      | error halt behind =>
          rw [hr] at hend
          cases halt with
          | tooDeep => exact ⟨hend.1, by simp [Interpretation.conclude, Outcome.Known]⟩
          | fault fault =>
              refine ⟨hend.1, ?_⟩
              intro file' kind span h
              cases h
              exact hend.2 kind rfl

/-- What one step keeps, every step of a session keeps. -/
theorem session_known {machine : Machine} (hm : machine.Shaped) (inputs : List Input) :
    ∀ step ∈ session machine inputs, step.outcome.Known := by
  induction inputs generalizing machine with
  | nil => simp [session]
  | cons input inputs ih =>
      obtain ⟨hmachine, hknown⟩ := interpret_safe input.depth input.file 0 hm
      intro step hs
      rcases List.mem_cons.mp hs with rfl | hs
      · exact hknown
      · exact ih hmachine step hs

/-- However deep its steps may nest, no session from an empty root frame ever stops at a node
that the evaluator does not know, and none at a node that is missing. -/
theorem session_never_unexpected_node (inputs : List Input) :
    ∀ step ∈ session .initial inputs, ∀ (file : SourceFile) (kind : Option Kind) (span : Span),
      step.outcome ≠ .failure ⟨file, .runtime ⟨.unexpectedNode kind, span⟩⟩ :=
  session_known Machine.shaped_initial inputs

theorem session_never_unexpected_node_in_stored_block :
    ∃ step ∈ session .initial
        [⟨20, ⟨"first", "f := [:x | x foo]"⟩⟩, ⟨20, ⟨"second", "f value: 3"⟩⟩],
      step.file.path = "second" ∧
        ∀ (file : SourceFile) (kind : Option Kind) (span : Span),
          step.outcome ≠ .failure ⟨file, .runtime ⟨.unexpectedNode kind, span⟩⟩ := by
  have hsecond : interpret 20 ⟨"second", "f value: 3"⟩ 0
      (interpret 20 ⟨"first", "f := [:x | x foo]"⟩ 0 .initial).machine ∈
      session .initial [⟨20, ⟨"first", "f := [:x | x foo]"⟩⟩, ⟨20, ⟨"second", "f value: 3"⟩⟩] :=
    List.mem_cons_of_mem _ (List.mem_singleton.mpr rfl)
  exact ⟨_, hsecond, by decide +kernel, session_never_unexpected_node _ _ hsecond⟩

end MiniSmalltalk
