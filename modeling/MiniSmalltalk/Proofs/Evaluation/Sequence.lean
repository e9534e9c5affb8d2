import MiniSmalltalk.Proofs.Evaluation.Depth
import MiniSmalltalk.Proofs.Evaluation.Regime
import MiniSmalltalk.Proofs.Grammar.Derivation

/-! # Sequences of statements

Statements that follow one another can be evaluated in two goes: the second goes on from the
machine that the first has left, and what the first has shown and remarked has no influence on
it. -/

namespace MiniSmalltalk

/-! ### Earlier output -/

/-- A machine whose output stands behind that of an earlier one. -/
def Machine.following (machine earlier : Machine) : Machine :=
  { machine with
    transcript := earlier.transcript.append machine.transcript.contents
    notices := earlier.notices ++ machine.notices }

theorem Machine.quiet_following (machine : Machine) :
    machine.quiet.following machine = machine := by
  simp [following, quiet, Transcript.append, Transcript.empty]

/-- Earlier output may be put in front of that of an evaluation. -/
def Regime.following (earlier : Machine) : Regime where
  holds _ := True
  frame _ _ := True
  later _ _ := True
  change machine := machine.following earlier
  cut _ _ := False

namespace Regime

variable (earlier : Machine)

theorem following_fits (machine : Machine) (value : Value) :
    (following earlier).Fits machine value := by
  cases value <;> trivial

theorem following_lawful : (following earlier).Lawful where
  later_refl _ := trivial
  later_trans _ _ := trivial
  frame_later _ _ := trivial
  cut_later hcut _ := hcut
  read _ _ _ := ⟨rfl, fun value _ => following_fits earlier _ value⟩
  store := by
    intro machine id value _ _ _ name span
    refine ⟨?_, trivial, trivial⟩
    simp only [Machine.store, following, Machine.following, apply_ite (earlier.notices ++ ·),
      List.append_assoc]
  enter _ _ _ := ⟨rfl, ⟨trivial, trivial⟩, trivial⟩
  count _ := ⟨rfl, rfl, trivial, trivial⟩
  display _ text := by
    refine ⟨?_, trivial, trivial⟩
    simp [following, Machine.following, Transcript.append, String.append_assoc]

end Regime

/-! ### Results at any depth -/

namespace Eval

variable {α β : Type} {machine : Machine}

/-- An evaluation comes to a result if it may nest deep enough. -/
def Yields (action : Nat → Eval α) (machine : Machine)
    (result : EStateM.Result Halt Machine α) : Prop :=
  ∃ depth, action depth machine = result ∧ Settled result

/-- What is settled comes to the same at a larger depth. -/
def Deepens (action : Nat → Eval α) : Prop :=
  ∀ {depth larger : Nat}, depth ≤ larger → Below (action depth) (action larger)

variable {action : Nat → Eval α} {result : EStateM.Result Halt Machine α}

theorem Yields.unique (ha : Deepens action) {other : EStateM.Result Halt Machine α}
    (h : Yields action machine result) (h' : Yields action machine other) : result = other := by
  obtain ⟨depth, hr, hs⟩ := h
  obtain ⟨depth', hr', hs'⟩ := h'
  have hle := ha (Nat.le_max_left depth depth') machine (hr ▸ hs)
  have hle' := ha (Nat.le_max_right depth depth') machine (hr' ▸ hs')
  rw [← hr, ← hr', ← hle, ← hle']

/-- Evaluations whose depths lie between one another come to the same results. -/
theorem yields_congr {other : Nat → Eval α} (h : ∀ depth, Below (action depth) (other depth))
    (h' : ∀ depth, Below (other depth) (action (depth + 1))) :
    Yields action machine result ↔ Yields other machine result := by
  constructor
  · rintro ⟨depth, rfl, hs⟩
    exact ⟨depth, h depth machine hs, hs⟩
  · rintro ⟨depth, rfl, hs⟩
    exact ⟨depth + 1, h' depth machine hs, hs⟩

/-- Two evaluations in a row come to the fault of the first, or to what the second comes to from
where the first has ended. -/
theorem yields_bind_iff {next : α → Nat → Eval β} (ha : Deepens action)
    (hn : ∀ value, Deepens (next value)) {result : EStateM.Result Halt Machine β} :
    Yields (fun depth => action depth >>= fun value => next value depth) machine result ↔
      (∃ halt behind, Yields action machine (.error halt behind) ∧ result = .error halt behind) ∨
      ∃ value behind, Yields action machine (.ok value behind) ∧
        Yields (next value) behind result := by
  constructor
  · rintro ⟨depth, hr, hs⟩
    simp only [Bind.bind, EStateM.bind] at hr
    cases ha : action depth machine with
    | ok value behind =>
        rw [ha] at hr
        exact .inr ⟨value, behind, ⟨depth, ha, settled_ok value behind⟩, depth, hr, hs⟩
    | error halt behind =>
        rw [ha] at hr
        have hsettled : Settled (action depth machine) := by
          intro last hl
          rw [ha] at hl
          cases hl
          exact hs behind hr.symm
        exact .inl ⟨halt, behind, ⟨depth, ha, ha ▸ hsettled⟩, hr.symm⟩
  · rintro (⟨halt, behind, ⟨depth, hr, hs⟩, rfl⟩ | ⟨value, behind, ⟨depth, hr, hs⟩, hnext⟩)
    · refine ⟨depth, ?_, fun last hl => hs behind (by cases hl; rfl)⟩
      simp only [Bind.bind, EStateM.bind, hr]
    · obtain ⟨depth', hr', hs'⟩ := hnext
      refine ⟨max depth depth', ?_, hs'⟩
      have hfirst := ha (Nat.le_max_left depth depth') machine (hr ▸ hs)
      have hsecond := hn value (Nat.le_max_right depth depth') behind (hr' ▸ hs')
      simp only [Bind.bind, EStateM.bind, hfirst, hr, hsecond, hr']

section

variable {next : α → Nat → Eval β} (ha : Deepens action) (hn : ∀ value, Deepens (next value))
  {behind : Machine} {final : EStateM.Result Halt Machine β}

include ha hn

/-- Two evaluations in a row stop at a fault of the first. -/
theorem yields_bind_of_error {halt : Halt} (hf : Yields action machine (.error halt behind)) :
    Yields (fun depth => action depth >>= fun value => next value depth) machine final ↔
      final = .error halt behind := by
  rw [yields_bind_iff ha hn]
  constructor
  · rintro (⟨other, last, hother, rfl⟩ | ⟨value, last, hother, -⟩)
    · cases hother.unique ha hf
      rfl
    · cases hother.unique ha hf
  · rintro rfl
    exact .inl ⟨halt, behind, hf, rfl⟩

/-- Without a fault, the second goes on from where the first has ended. -/
theorem yields_bind_of_ok {value : α} (hf : Yields action machine (.ok value behind)) :
    Yields (fun depth => action depth >>= fun value => next value depth) machine final ↔
      Yields (next value) behind final := by
  rw [yields_bind_iff ha hn]
  constructor
  · rintro (⟨halt, last, hother, -⟩ | ⟨other, last, hother, hlast⟩)
    · cases hother.unique ha hf
    · cases hother.unique ha hf
      exact hlast
  · exact fun hlast => .inr ⟨value, behind, hf, hlast⟩

end

end Eval

/-! ### Statements -/

open Eval

namespace Evaluator

def sequence (frame : FrameId) (parts : List Node) (depth : Nat) : Eval Value :=
  statements (evalUpTo depth) frame .nil (parts.map some)

variable (eval : Evaluator) (frame : FrameId)

theorem statements_append (last : Value) (front back : List (Option Node)) :
    statements eval frame last (front ++ back) =
      statements eval frame last front >>= fun value => statements eval frame value back := by
  induction front generalizing last with
  | nil => rfl
  | cons slot slots ih =>
      cases slot with
      | none => exact ih .nil
      | some node =>
          simp only [List.cons_append, statements, bind_assoc, ih]

theorem sequence_append (front : List Node) {back : List Node} (h : back ≠ []) :
    sequence frame (front ++ back) = fun depth =>
      sequence frame front depth >>= fun _ => sequence frame back depth := by
  obtain ⟨node, nodes, rfl⟩ := List.exists_cons_of_ne_nil h
  funext depth
  rw [sequence, List.map_append, statements_append]
  rfl

theorem sequence_deepens (parts : List Node) : Deepens (sequence frame parts) :=
  fun h => statements_below (fun node frame => evalUpTo_below h node frame) frame .nil _

section Append

variable {front back : List Node} (h : back ≠ []) {machine behind : Machine}
  {result : EStateM.Result Halt Machine Value}

include h

theorem yields_append_iff :
    Yields (sequence frame (front ++ back)) machine result ↔
      (∃ halt behind, Yields (sequence frame front) machine (.error halt behind) ∧
        result = .error halt behind) ∨
      ∃ value behind, Yields (sequence frame front) machine (.ok value behind) ∧
        Yields (sequence frame back) behind result := by
  rw [sequence_append frame front h]
  exact yields_bind_iff (sequence_deepens frame front) fun _ => sequence_deepens frame back

/-- Statements stop at the first fault. -/
theorem yields_append_of_error {halt : Halt}
    (hf : Yields (sequence frame front) machine (.error halt behind)) :
    Yields (sequence frame (front ++ back)) machine result ↔ result = .error halt behind := by
  rw [sequence_append frame front h]
  exact yields_bind_of_error (sequence_deepens frame front)
    (fun _ => sequence_deepens frame back) hf

/-- Without a fault, statements go on from where those in front have ended. -/
theorem yields_append_of_ok {value : Value}
    (hf : Yields (sequence frame front) machine (.ok value behind)) :
    Yields (sequence frame (front ++ back)) machine result ↔
      Yields (sequence frame back) behind result := by
  rw [sequence_append frame front h]
  exact yields_bind_of_ok (sequence_deepens frame front) (fun _ => sequence_deepens frame back) hf

theorem yields_front (hy : Yields (sequence frame (front ++ back)) machine result) :
    ∃ own, Yields (sequence frame front) machine own := by
  rcases (yields_append_iff frame h).mp hy with ⟨halt, last, hf, -⟩ | ⟨value, last, hf, -⟩
  · exact ⟨_, hf⟩
  · exact ⟨_, hf⟩

end Append

/-- A program of one statement is that statement, so it needs one level less than a sequence. -/
theorem yields_statementsOf {parts : List Node} {machine : Machine}
    {result : EStateM.Result Halt Machine Value} :
    Yields (fun depth => evalUpTo depth (.statementsOf parts) frame) machine result ↔
      Yields (sequence frame parts) machine result := by
  have hcomposed : ∀ depth, Below (evalUpTo depth (.compose .statements parts) frame)
      (sequence frame parts depth) := by
    intro depth
    cases depth with
    | zero => exact .tooDeep _
    | succ depth => exact sequence_deepens frame parts (Nat.le_succ depth)
  match parts with
  | [] => exact yields_congr hcomposed fun _ => .refl _
  | [only] =>
      have honly : sequence frame [only] = fun depth => evalUpTo depth only frame :=
        funext fun depth => bind_pure (evalUpTo depth only frame)
      rw [honly]
      exact Iff.rfl
  | first :: second :: others => exact yields_congr hcomposed fun _ => .refl _

/-- What was shown and remarked before a sequence stays in front of its own output. -/
theorem sequence_following (depth : Nat) (parts : List Node) (machine earlier : Machine) :
    sequence frame parts depth (machine.following earlier) =
      (Regime.following earlier).exchange (sequence frame parts depth machine) := by
  have law := Regime.following_lawful earlier
  exact (law.statements_obeys (law.evalUpTo_obeys depth) trivial trivial (parts.map some)
    (Regime.following_fits earlier machine .nil)).eq_exchange fun _ _ hcut => hcut

end Evaluator

end MiniSmalltalk
