import MiniSmalltalk.Proofs.Evaluation.Sequence
import MiniSmalltalk.Proofs.Grammar.Joining
import MiniSmalltalk.Proofs.Session.Layout

/-! # Sessions and batches

Two sources may be interpreted one after the other, or as one source with a dot between them.
Both come to the same, up to positions. -/

namespace MiniSmalltalk

open Eval Evaluator

/-! ### Interpretations that come to an end -/

/-- The interpretation of a source comes to an end if it may nest deep enough. -/
def Interprets (file : SourceFile) (frame : FrameId) (machine : Machine)
    (interpretation : Interpretation) : Prop :=
  ∃ depth, interpret depth file frame machine = interpretation ∧ interpretation.outcome ≠ .tooDeep

section

variable {file : SourceFile} {parts : List Node} {frame : FrameId} {machine : Machine}
  {interpretation : Interpretation}

/-- Interpreting a source is to conclude what its program comes to. -/
theorem interprets_iff {tree : Node} (h : parseProgram file.text = .ok ⟨some tree, []⟩) :
    Interprets file frame machine interpretation ↔ ∃ result,
      Yields (fun depth => evalUpTo depth tree frame) machine.quiet result ∧
        interpretation = .conclude file result := by
  have hinterpret : ∀ depth, interpret depth file frame machine =
      .conclude file (evalUpTo depth tree frame machine.quiet) :=
    fun depth => interpret_of_parsed h depth frame machine
  simp only [Interprets, hinterpret]
  constructor
  · rintro ⟨depth, rfl, hend⟩
    exact ⟨_, ⟨depth, rfl, conclude_ne_tooDeep.mp hend⟩, rfl⟩
  · rintro ⟨result, ⟨depth, hr, hs⟩, rfl⟩
    exact ⟨depth, congrArg (Interpretation.conclude file) hr, conclude_ne_tooDeep.mpr hs⟩

theorem interprets_statementsOf_iff
    (h : parseProgram file.text = .ok ⟨some (.statementsOf parts), []⟩) :
    Interprets file frame machine interpretation ↔ ∃ result,
      Yields (sequence frame parts) machine.quiet result ∧
        interpretation = .conclude file result := by
  simp only [interprets_iff h, yields_statementsOf]

/-- Trees that are the same up to positions yield results that are. -/
theorem yields_alike {tree other : Node} (h : other.placeless = tree.placeless)
    {result : EStateM.Result Halt Machine Value}
    (hy : Yields (fun depth => evalUpTo depth tree frame) machine result) :
    ∃ moved, Yields (fun depth => evalUpTo depth other frame) machine moved ∧
      View.anywhere.result View.anywhere.value moved =
        View.anywhere.result View.anywhere.value result := by
  obtain ⟨depth, hr, hs⟩ := hy
  have hsame := @evaluate_alike (some tree) (some other) (by simpa using h) machine machine rfl
    depth frame
  have hmoved : View.anywhere.result View.anywhere.value (evalUpTo depth other frame machine) =
      View.anywhere.result View.anywhere.value result := hr ▸ hsame
  refine ⟨_, ⟨depth, rfl, ?_⟩, hmoved⟩
  rw [← @settled_result _ _ .anywhere View.anywhere.value] at hs ⊢
  exact hmoved ▸ hs

/-- What a sequence yields behind earlier output, it yields without. -/
theorem yields_following {result : EStateM.Result Halt Machine Value} :
    Yields (sequence frame parts) machine result ↔ ∃ own,
      Yields (sequence frame parts) machine.quiet own ∧
        result = (Regime.following machine).exchange own := by
  have hsplit : ∀ depth, sequence frame parts depth machine =
      (Regime.following machine).exchange (sequence frame parts depth machine.quiet) := by
    intro depth
    rw [← sequence_following, Machine.quiet_following]
  have hsettled : ∀ own : EStateM.Result Halt Machine Value,
      Settled ((Regime.following machine).exchange own) ↔ Settled own := by
    intro own
    cases own with
    | ok value behind => exact iff_of_true (settled_ok _ _) (settled_ok _ _)
    | error halt behind => cases halt <;> simp [Regime.exchange, Settled]
  constructor
  · rintro ⟨depth, rfl, hs⟩
    refine ⟨_, ⟨depth, rfl, ?_⟩, hsplit depth⟩
    rw [← hsettled, ← hsplit]
    exact hs
  · rintro ⟨own, ⟨depth, rfl, hs⟩, rfl⟩
    exact ⟨depth, hsplit depth, (hsettled _).mpr hs⟩

end

/-! ### Two sources and one -/

/-- An interpretation as it would have gone on behind another. -/
structure Interpretation.Continues (whole first second : Interpretation) : Prop where
  outcome : second.outcome.Alike whole.outcome
  transcript : whole.transcript = first.transcript ++ second.transcript
  notices : whole.machine.notices.map View.anywhere.notice =
    (first.machine.notices ++ second.machine.notices).map View.anywhere.notice
  heap : View.anywhere.heap whole.machine.heap = View.anywhere.heap second.machine.heap

theorem conclude_continues {first : Interpretation} (second joined : SourceFile)
    {own result : EStateM.Result Halt Machine Value}
    (h : View.anywhere.result View.anywhere.value own =
      View.anywhere.result View.anywhere.value result) :
    (Interpretation.conclude joined ((Regime.following first.machine).exchange own)).Continues
      first (.conclude second result) := by
  obtain ⟨houtcome, htranscript, hnotices, hheap⟩ := conclude_alike second joined h
  have hwhole : Interpretation.conclude joined ((Regime.following first.machine).exchange own) =
      { Interpretation.conclude joined own with
        machine := (Interpretation.conclude joined own).machine.following first.machine } := by
    cases own with
    | ok value behind => rfl
    | error halt behind => cases halt <;> rfl
  rw [hwhole]
  refine ⟨houtcome, ?_, ?_, hheap⟩
  · rw [← htranscript]
    rfl
  · rw [List.map_append, ← hnotices, ← List.map_append]
    rfl

theorem conclude_eq_value {file : SourceFile} {value : Value}
    {result : EStateM.Result Halt Machine Value}
    (h : (Interpretation.conclude file result).outcome = .value value) :
    ∃ behind, result = .ok value behind := by
  cases result with
  | ok found behind =>
      cases h
      exact ⟨behind, rfl⟩
  | error halt behind => cases halt <;> cases h

theorem conclude_eq_failure {file : SourceFile} {fault : RuntimeFault}
    {result : EStateM.Result Halt Machine Value}
    (h : (Interpretation.conclude file result).outcome = .failure ⟨file, .runtime fault⟩) :
    ∃ behind, result = .error (.fault fault) behind := by
  cases result with
  | ok found behind => cases h
  | error halt behind =>
      cases halt with
      | tooDeep => cases h
      | fault found =>
          cases h
          exact ⟨behind, rfl⟩

/-- Two sources, neither of them a return, of which the first does not end in a dot. If the first
fails, so does the joined source, with the same fault and the same machine. Otherwise the joined
source comes to an end if the second does on the machine of the first, and then it goes on from
the first as the second does. -/
theorem batch_equals_session (first second joined : SourceFile)
    (hj : joined.text = first.text ++ " . " ++ second.text) (tokens : List Node)
    (ht : tokenize first.text = .ok tokens)
    (hdot : ∀ token ∈ tokens.getLast?, token.kind ≠ .dot) (tree tree' : Node)
    (h : parseProgram first.text = .ok ⟨some tree, []⟩) (hk : tree.kind ≠ .answer)
    (h' : parseProgram second.text = .ok ⟨some tree', []⟩) (hk' : tree'.kind ≠ .answer)
    (frame : FrameId) (machine : Machine) :
    (∀ one fault, Interprets first frame machine one →
      one.outcome = .failure ⟨first, .runtime fault⟩ →
      ∀ whole, Interprets joined frame machine whole ↔
        whole = ⟨joined, .failure ⟨joined, .runtime fault⟩, one.machine⟩) ∧
    (∀ one value, Interprets first frame machine one → one.outcome = .value value →
      ((∃ whole, Interprets joined frame machine whole) ↔
        ∃ two, Interprets second frame one.machine two) ∧
      ∀ two whole, Interprets second frame one.machine two →
        Interprets joined frame machine whole → whole.Continues one two) ∧
    ((∃ whole, Interprets joined frame machine whole) →
      ∃ one, Interprets first frame machine one) := by
  obtain ⟨parts, parts', rfl, hne, hplaceless, hparsed⟩ := parseProgram_joined ht hdot h hk h' hk'
  rw [← hj] at hparsed
  simp only [interprets_statementsOf_iff h, interprets_statementsOf_iff hparsed, interprets_iff h']
  refine ⟨?_, ?_, ?_⟩
  · rintro one fault ⟨result, hone, rfl⟩ hfails whole
    obtain ⟨behind, rfl⟩ := conclude_eq_failure hfails
    simp only [yields_append_of_error frame hne hone, exists_eq_left]
    exact Iff.rfl
  · rintro one value ⟨result, hone, rfl⟩ hvalue
    obtain ⟨behind, rfl⟩ := conclude_eq_value hvalue
    simp only [yields_append_of_ok frame hne hone]
    refine ⟨⟨?_, ?_⟩, ?_⟩
    · rintro ⟨whole, result, hy, -⟩
      obtain ⟨own, hown, -⟩ := yields_following.mp hy
      rw [← yields_statementsOf] at hown
      obtain ⟨moved, hmoved, -⟩ := yields_alike hplaceless.symm hown
      exact ⟨_, moved, hmoved, rfl⟩
    · rintro ⟨two, result, hy, -⟩
      obtain ⟨own, hown, -⟩ := yields_alike hplaceless hy
      rw [yields_statementsOf] at hown
      exact ⟨_, _, yields_following.mpr ⟨own, hown, rfl⟩, rfl⟩
    · rintro two whole ⟨result, hy, rfl⟩ ⟨result', hy', rfl⟩
      obtain ⟨own, hown, rfl⟩ := yields_following.mp hy'
      obtain ⟨moved, hmoved, hsame⟩ := yields_alike hplaceless hy
      rw [yields_statementsOf] at hmoved
      obtain rfl := hown.unique (sequence_deepens frame parts') hmoved
      exact @conclude_continues (.conclude first (.ok value behind)) second joined _ _ hsame
  · rintro ⟨whole, result, hy, -⟩
    obtain ⟨own, hown⟩ := yields_front frame hne hy
    exact ⟨_, own, hown, rfl⟩

theorem batch_equals_session_stored_block :
    let first : SourceFile := ⟨"first", "f := [:a | t := a . a printNl]"⟩
    let second : SourceFile := ⟨"second", "f value: 'b'"⟩
    let joined : SourceFile := ⟨"joined", "f := [:a | t := a . a printNl] . f value: 'b'"⟩
    let one := interpret 12 first 0 .initial
    let two := interpret 12 second 0 one.machine
    let whole := interpret 12 joined 0 .initial
    (two.transcript = "b" ∧ two.machine.notices.length = 1) ∧ whole.Continues one two := by
  intro first second joined one two whole
  obtain ⟨tokens, ht, hdot⟩ : ∃ tokens, tokenize "f := [:a | t := a . a printNl]" = .ok tokens ∧
      ∀ token ∈ tokens.getLast?, token.kind ≠ .dot := by
    refine ⟨_, rfl, ?_⟩
    rintro token ⟨⟩
    decide
  have hparsed : ∀ source, (parseProgram source).toOption.map
      (fun parsed => (parsed.program.map fun tree => tree.kind == .answer, parsed.rest.length)) =
        some (some false, 0) →
      ∃ tree, parseProgram source = .ok ⟨some tree, []⟩ ∧ tree.kind ≠ .answer := by
    intro source hs
    cases hp : parseProgram source with
    | error fault => simp [hp, Except.toOption] at hs
    | ok parsed =>
        obtain ⟨program, rest⟩ := parsed
        obtain ⟨⟨tree, rfl, hk⟩, rfl⟩ : (∃ tree, program = some tree ∧ tree.kind ≠ .answer) ∧
            rest = [] := by simpa [hp, Except.toOption] using hs
        exact ⟨tree, rfl, hk⟩
  obtain ⟨tree, h, hk⟩ := hparsed first.text (by decide +kernel)
  obtain ⟨tree', h', hk'⟩ := hparsed second.text (by decide +kernel)
  have hone : Interprets first 0 .initial one := ⟨12, rfl, by decide +kernel⟩
  have htwo : Interprets second 0 one.machine two := ⟨12, rfl, by decide +kernel⟩
  have hwhole : Interprets joined 0 .initial whole := ⟨12, rfl, by decide +kernel⟩
  obtain ⟨value, hvalue⟩ : ∃ value, one.outcome = .value value := by
    have hshown : one.outcome.rec (fun _ => true) (fun _ => false) false = true := by
      decide +kernel
    cases ho : one.outcome with
    | value value => exact ⟨value, rfl⟩
    | failure | tooDeep => simp [ho] at hshown
  have hbatch := batch_equals_session first second joined rfl tokens ht hdot tree tree' h hk h' hk'
    0 .initial
  exact ⟨by decide +kernel, (hbatch.2.1 one value hone hvalue).2 two whole htwo hwhole⟩

end MiniSmalltalk
