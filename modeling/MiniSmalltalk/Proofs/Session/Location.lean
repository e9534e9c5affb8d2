import MiniSmalltalk.Proofs.Evaluation.Naturality
import MiniSmalltalk.Proofs.Grammar.Heredity
import MiniSmalltalk.Proofs.Session.Safety
import MiniSmalltalk.Proofs.Token.Tiling

/-! # Where failures and warnings point

A failure and a warning carry the source of the step that reports them, but a block carries the
spans of the source it was written in. So a span that is reported lies in one of the sources so
far, and not always in the one it is reported with. -/

namespace MiniSmalltalk

/-! ### Spans that lie in a source -/

def Span.LiesIn (sources : List String) (span : Span) : Prop :=
  ∃ source ∈ sources, span.start ≤ span.stop ∧ span.stop ≤ source.utf8ByteSize

instance (sources : List String) (span : Span) : Decidable (span.LiesIn sources) :=
  inferInstanceAs (Decidable (∃ source ∈ sources, _))

theorem Span.liesIn_origin {sources : List String} (h : sources ≠ []) :
    Span.origin.LiesIn sources := by
  obtain ⟨source, others, rfl⟩ := List.exists_cons_of_ne_nil h
  exact ⟨source, by simp, Nat.le_refl 0, Nat.zero_le _⟩

theorem Span.region_liesIn {sources : List String} : Span.Region (Span.LiesIn sources) := by
  constructor
  rintro a b ⟨first, hfirst, ha, ha'⟩ ⟨second, hsecond, hb, hb'⟩
  have hstart : min a.start b.start ≤ max a.stop b.stop := by omega
  rcases Nat.le_total a.stop b.stop with hle | hle
  · exact ⟨second, hsecond, hstart, by rw [merge_stop, Nat.max_eq_right hle]; exact hb'⟩
  · exact ⟨first, hfirst, hstart, by rw [merge_stop, Nat.max_eq_left hle]; exact ha'⟩

/-- The view that puts every span elsewhere that lies in none of the sources. -/
def View.confine (sources : List String) : View :=
  ⟨fun span => if span.LiesIn sources then span else .origin, fun _ => false⟩

theorem View.confine_place_eq_iff {sources : List String} (h : sources ≠ []) {span : Span} :
    (confine sources).place span = span ↔ span.LiesIn sources := by
  by_cases hs : span.LiesIn sources
  · simp [confine, hs]
  · refine iff_of_false ?_ hs
    intro hp
    have horigin : Span.origin = span := by simpa [confine, hs] using hp
    exact hs (horigin ▸ Span.liesIn_origin h)

/-- All spans of a machine lie in one of the sources: there is nothing to put elsewhere. -/
def Machine.Confined (sources : List String) (machine : Machine) : Prop :=
  (View.confine sources).machine machine = machine

theorem Machine.confined_initial (sources : List String) : Machine.initial.Confined sources :=
  View.machine_initial

section

variable {sources : List String} {machine : Machine}

theorem Machine.Confined.heap_eq (h : machine.Confined sources) :
    (View.confine sources).heap machine.heap = machine.heap :=
  congrArg Machine.heap h

theorem Machine.confined_of_heap_eq (h : (View.confine sources).heap machine.heap = machine.heap)
    (hn : ∀ notice ∈ machine.notices, (View.confine sources).notice notice = notice) :
    machine.Confined sources := by
  have hnotices : machine.notices.map (View.confine sources).notice = machine.notices := by
    rw [List.map_congr_left hn, List.map_id']
  rw [Machine.Confined, View.machine, h, hnotices]

theorem Machine.Confined.notice_liesIn (hs : sources ≠ []) (h : machine.Confined sources) :
    ∀ notice ∈ machine.notices, notice.span.LiesIn sources :=
  fun notice hm => (View.confine_place_eq_iff hs).mp (View.place_of_machine h notice hm)

theorem View.confine_notice {notice : Notice} (h : notice.span.LiesIn sources) :
    (View.confine sources).notice notice = notice := by
  cases notice <;> simp_all [View.notice, View.confine, Notice.span]

end

/-! ### Tokens and trees -/

theorem token_liesIn {source : String} {tokens : List Node} (h : tokenize source = .ok tokens) :
    ∀ token ∈ tokens, token.span.start ≤ token.span.stop ∧
      token.span.stop ≤ source.utf8ByteSize := by
  intro token hm
  have hsource : source.toList = [] ++ source.toList := rfl
  obtain ⟨-, lexeme, hslice, -⟩ :=
    @Token.Tiled.tokens_spelled source [] _ _ (tiled_of_tokenize h) hsource token hm
  refine ⟨?_, hslice.stop_le⟩
  obtain ⟨before, behind, -, hspan⟩ := hslice
  rw [hspan]
  exact Nat.le_add_right _ _

section

variable {sources : List String} {source : String} (hs : source ∈ sources)

include hs

theorem program_confined {parsed : Parsed} (h : parseProgram source = .ok parsed) :
    parsed.program.map (View.confine sources).node = parsed.program := by
  have hne : sources ≠ [] := List.ne_nil_of_mem hs
  obtain ⟨consumed, htokens, hd⟩ := Grammar.parseProgram_consumed h
  cases hprogram : parsed.program with
  | none => rfl
  | some tree =>
      have hproper : ∀ token ∈ consumed,
          token.Proper (Span.LiesIn sources) fun _ => false := by
        intro token hm
        exact ⟨⟨source, hs, token_liesIn htokens token (List.mem_append_left _ hm)⟩, by simp⟩
      have htree := (hd tree hprogram).everywhere Span.region_liesIn hproper
      refine congrArg some (Node.relocate_of_everywhere _ (htree.mono ?_))
      intro node hn
      exact (View.confine_place_eq_iff hne).mpr hn.span

theorem unparsed_confined {parsed : Parsed} (h : parseProgram source = .ok parsed) :
    ∀ notice ∈ unparsedNotices source parsed, notice.span.LiesIn sources := by
  obtain ⟨consumed, htokens, -⟩ := Grammar.parseProgram_consumed h
  intro notice hm
  unfold unparsedNotices at hm
  split at hm
  · simp at hm
  · rename_i first rest hrest
    obtain rfl := List.mem_singleton.mp hm
    obtain ⟨hstart, hstop⟩ := token_liesIn htokens first (by simp [hrest])
    exact ⟨source, hs, Nat.le_trans hstart hstop, Nat.le_refl _⟩

end

/-! ### Steps and sessions -/

/-- Whatever an interpretation reports carries its own source, and a span that lies in one of
several sources. -/
structure Interpretation.Located (sources : List String) (step : Interpretation) : Prop where
  fault : ∀ failure fault, step.outcome = .failure failure → failure.cause = .runtime fault →
    failure.file = step.file ∧ fault.span.LiesIn sources
  warning : ∀ warning ∈ step.warnings,
    warning.file = step.file ∧ warning.notice.span.LiesIn sources

theorem located_of_confined {sources : List String} {step : Interpretation} (hs : sources ≠ [])
    (hm : step.machine.Confined sources)
    (ho : ∀ failure fault, step.outcome = .failure failure → failure.cause = .runtime fault →
      failure.file = step.file ∧ fault.span.LiesIn sources) : step.Located sources := by
  refine ⟨ho, ?_⟩
  intro warning hw
  obtain ⟨notice, hn, rfl⟩ := List.mem_map.mp hw
  exact ⟨rfl, hm.notice_liesIn hs notice hn⟩

theorem conclude_located {sources : List String} (hs : sources ≠ []) (file : SourceFile)
    {result : EStateM.Result Halt Machine Value}
    (h : result = (View.confine sources).result (View.confine sources).value result) :
    (Interpretation.conclude file result).machine.Confined sources ∧
      (Interpretation.conclude file result).Located sources := by
  cases result with
  | ok value behind =>
      have hm : behind.Confined sources := (EStateM.Result.ok.inj h).2.symm
      exact ⟨hm, located_of_confined hs hm (by simp [Interpretation.conclude])⟩
  | error halt behind =>
      have hm : behind.Confined sources := (EStateM.Result.error.inj h).2.symm
      have hhalt := (EStateM.Result.error.inj h).1
      cases halt with
      | tooDeep => exact ⟨hm, located_of_confined hs hm (by simp [Interpretation.conclude])⟩
      | fault fault =>
          refine ⟨hm, located_of_confined hs hm ?_⟩
          rintro failure found ⟨⟩ ⟨⟩
          refine ⟨rfl, (View.confine_place_eq_iff hs).mp ?_⟩
          exact View.place_of_halt hhalt.symm

/-- One step reports nothing but spans of the sources so far, and leaves no others behind. -/
theorem interpret_located {sources : List String} {machine : Machine} (depth : Nat)
    {file : SourceFile} (hf : file.text ∈ sources) (frame : FrameId)
    (hm : machine.Confined sources) :
    (interpret depth file frame machine).machine.Confined sources ∧
      (interpret depth file frame machine).Located sources := by
  have hne : sources ≠ [] := List.ne_nil_of_mem hf
  cases hparsed : parseProgram file.text with
  | error fault =>
      have hquiet : machine.quiet.Confined sources :=
        Machine.confined_of_heap_eq hm.heap_eq (by simp [Machine.quiet])
      unfold interpret
      rw [hparsed]
      refine ⟨hquiet, located_of_confined hne hquiet ?_⟩
      rintro failure found ⟨⟩ hcause
      unfold FailureCause.ofSyntax at hcause
      split at hcause <;> cases hcause
  | ok parsed =>
      rw [interpret_of_parsed hparsed]
      generalize hready : Machine.mk _ _ _ _ = ready
      have hconfined : ready.Confined sources := by
        rw [← hready]
        exact Machine.confined_of_heap_eq hm.heap_eq fun notice hn =>
          View.confine_notice (unparsed_confined hf hparsed notice hn)
      -- Nothing the step is given moves, so nothing it comes to moves either.
      obtain ⟨hseen, -⟩ := @evaluate_seen (.confine sources) depth parsed.program
        (fun node _ => node.avoids_nothing) (some frame) ready (.of_holding ready.avoids_nothing)
      rw [program_confined hf hparsed, hconfined] at hseen
      exact conclude_located hne file hseen

theorem session_located {sources : List String} {machine : Machine}
    (hm : machine.Confined sources) {inputs : List Input}
    (hi : ∀ input ∈ inputs, input.file.text ∈ sources) :
    ∀ step ∈ session machine inputs, step.Located sources := by
  induction inputs generalizing machine with
  | nil => simp [session]
  | cons input inputs ih =>
      obtain ⟨hbehind, hlocated⟩ := interpret_located input.depth (hi input (by simp)) 0 hm
      intro step hs
      rcases List.mem_cons.mp hs with rfl | hs
      · exact hlocated
      · exact ih hbehind (fun other hmem => hi other (by simp [hmem])) step hs

/-- The first steps of a session depend on the first inputs only. -/
theorem session_take (machine : Machine) (inputs : List Input) (count : Nat) :
    (session machine inputs).take count = session machine (inputs.take count) := by
  induction inputs generalizing machine count with
  | nil => simp [session]
  | cons input inputs ih =>
      cases count with
      | zero => rfl
      | succ count => simp [session, ih]

theorem conclude_file (file : SourceFile) (result : EStateM.Result Halt Machine Value) :
    (Interpretation.conclude file result).file = file := by
  cases result with
  | ok value behind => rfl
  | error halt behind => cases halt <;> rfl

theorem interpret_file (depth : Nat) (file : SourceFile) (frame : FrameId) (machine : Machine) :
    (interpret depth file frame machine).file = file := by
  cases hparsed : parseProgram file.text with
  | error fault =>
      unfold interpret
      rw [hparsed]
  | ok parsed => rw [interpret_of_parsed hparsed, conclude_file]

theorem file_of_session (machine : Machine) (inputs : List Input) :
    (session machine inputs).map Interpretation.file = inputs.map Input.file := by
  induction inputs generalizing machine with
  | nil => rfl
  | cons input inputs ih =>
      simp [session, ih, interpret_file]

/-- Every failure and every warning of a session carries the source of its step, and a span that
lies in this source or in an earlier one. -/
theorem session_reports_lie_in_sources (inputs : List Input) (index : Nat) (step : Interpretation)
    (h : (session .initial inputs)[index]? = some step) :
    ∃ input, inputs[index]? = some input ∧
      (∀ failure fault, step.outcome = .failure failure → failure.cause = .runtime fault →
        failure.file = input.file ∧ ∃ source ∈ (inputs.take (index + 1)).map Input.file,
          fault.span.start ≤ fault.span.stop ∧ fault.span.stop ≤ source.text.utf8ByteSize) ∧
      ∀ warning ∈ step.warnings,
        warning.file = input.file ∧ ∃ source ∈ (inputs.take (index + 1)).map Input.file,
          warning.notice.span.start ≤ warning.notice.span.stop ∧
            warning.notice.span.stop ≤ source.text.utf8ByteSize := by
  have hfiles := congrArg (·[index]?) (file_of_session .initial inputs)
  simp only [List.getElem?_map, h, Option.map_some] at hfiles
  obtain ⟨input, hinput, hfile⟩ := Option.map_eq_some_iff.mp hfiles.symm
  have hmem : step ∈ session .initial (inputs.take (index + 1)) := by
    rw [← session_take]
    refine @List.mem_of_getElem? _ _ index _ ?_
    simp [h]
  have hlocated := session_located
    (Machine.confined_initial ((inputs.take (index + 1)).map fun input => input.file.text))
    (fun other hm => List.mem_map.mpr ⟨other, hm, rfl⟩) step hmem
  have hsource : ∀ span : Span,
      span.LiesIn ((inputs.take (index + 1)).map fun input => input.file.text) →
      ∃ source ∈ (inputs.take (index + 1)).map Input.file,
        span.start ≤ span.stop ∧ span.stop ≤ source.text.utf8ByteSize := by
    rintro span ⟨source, hm, hspan⟩
    obtain ⟨other, hother, rfl⟩ := List.mem_map.mp hm
    exact ⟨other.file, List.mem_map.mpr ⟨other, hother, rfl⟩, hspan⟩
  refine ⟨input, hinput, ?_, ?_⟩
  · intro failure fault ho hc
    obtain ⟨hf, hspan⟩ := hlocated.fault failure fault ho hc
    exact ⟨hf.trans hfile.symm, hsource _ hspan⟩
  · intro warning hw
    obtain ⟨hf, hspan⟩ := hlocated.warning warning hw
    exact ⟨hf.trans hfile.symm, hsource _ hspan⟩

def Interpretation.fault? (step : Interpretation) : Option (SourceFile × RuntimeFault) :=
  match step.outcome with
  | .failure ⟨file, .runtime fault⟩ => some (file, fault)
  | _ => none

theorem Interpretation.outcome_of_fault? {step : Interpretation} {file : SourceFile}
    {fault : RuntimeFault} (h : step.fault? = some (file, fault)) :
    step.outcome = .failure ⟨file, .runtime fault⟩ := by
  unfold fault? at h
  split at h
  · simp_all
  · cases h

/-- A block of one source that is called from a shorter one fails with a span that lies behind
the end of the source it is reported with. -/
theorem stored_block_fails_behind_end :
    ∃ step ∈ session .initial
        [⟨20, ⟨"first", "f := [:x | x foo]"⟩⟩, ⟨20, ⟨"second", "f value: 3"⟩⟩],
      ∃ fault, step.outcome = .failure ⟨⟨"second", "f value: 3"⟩, .runtime fault⟩ ∧
        fault.span = ⟨13, 16⟩ ∧ "f value: 3".utf8ByteSize = 10 := by
  have hfault : (interpret 20 ⟨"second", "f value: 3"⟩ 0
      (interpret 20 ⟨"first", "f := [:x | x foo]"⟩ 0 .initial).machine).fault? =
      some (⟨"second", "f value: 3"⟩, ⟨.noSuchOperation "foo" "foo" .number, ⟨13, 16⟩⟩) := by
    decide +kernel
  exact ⟨_, List.mem_cons_of_mem _ (List.mem_singleton.mpr rfl), _,
    Interpretation.outcome_of_fault? hfault, rfl, rfl⟩

theorem session_reports_lie_in_sources_stored_block :
    ∃ step fault, (session .initial
        [⟨20, ⟨"first", "f := [:x | x foo]"⟩⟩, ⟨20, ⟨"second", "f value: 3"⟩⟩])[1]? = some step ∧
      step.outcome = .failure ⟨⟨"second", "f value: 3"⟩, .runtime fault⟩ ∧
      ∃ source ∈ [SourceFile.mk "first" "f := [:x | x foo]", ⟨"second", "f value: 3"⟩],
        fault.span.start ≤ fault.span.stop ∧
          fault.span.stop ≤ source.text.utf8ByteSize := by
  have hfault : (interpret 20 ⟨"second", "f value: 3"⟩ 0
      (interpret 20 ⟨"first", "f := [:x | x foo]"⟩ 0 .initial).machine).fault? =
      some (⟨"second", "f value: 3"⟩, ⟨.noSuchOperation "foo" "foo" .number, ⟨13, 16⟩⟩) := by
    decide +kernel
  have houtcome := Interpretation.outcome_of_fault? hfault
  obtain ⟨input, -, hfailure, -⟩ := session_reports_lie_in_sources
    [⟨20, ⟨"first", "f := [:x | x foo]"⟩⟩, ⟨20, ⟨"second", "f value: 3"⟩⟩] 1 _ rfl
  exact ⟨_, _, rfl, houtcome, (hfailure _ _ houtcome rfl).2⟩

end MiniSmalltalk
