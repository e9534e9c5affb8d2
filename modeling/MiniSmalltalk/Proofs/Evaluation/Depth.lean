import MiniSmalltalk.Proofs.Evaluation.Regime

/-! # Depth

The depth to which an evaluation may nest decides whether it comes to an end, and nothing else:
an evaluation that is settled comes to the same wherever it may nest deeper. One that nests less
deep is, at worst, interrupted. -/

namespace MiniSmalltalk

namespace Eval

variable {α β : Type}

/-- An evaluation did not stop for its depth. -/
def Settled (result : EStateM.Result Halt Machine α) : Prop :=
  ∀ machine, result ≠ .error .tooDeep machine

/-- Whatever one evaluation settles, another comes to as well. -/
def Below (action deeper : Eval α) : Prop :=
  ∀ machine, Settled (action machine) → deeper machine = action machine

theorem settled_ok (value : α) (machine : Machine) :
    Settled (EStateM.Result.ok value machine : EStateM.Result Halt Machine α) :=
  fun _ h => nomatch h

namespace Below

theorem refl (action : Eval α) : Below action action := fun _ _ => rfl

theorem trans {first second third : Eval α} (h : Below first second) (h' : Below second third) :
    Below first third := by
  intro machine hs
  have hsecond := h machine hs
  rw [h' machine (hsecond ▸ hs), hsecond]

theorem tooDeep (deeper : Eval α) : Below (throw .tooDeep) deeper :=
  fun machine hs => absurd rfl (hs machine)

theorem bind {action deeper : Eval α} {next deeperNext : α → Eval β} (h : Below action deeper)
    (hn : ∀ value, Below (next value) (deeperNext value)) :
    Below (action >>= next) (deeper >>= deeperNext) := by
  intro machine hs
  simp only [Bind.bind, EStateM.bind] at hs ⊢
  cases hr : action machine with
  | ok value behind =>
      rw [h machine (hr ▸ settled_ok value behind), hr]
      rw [hr] at hs
      exact hn value behind hs
  | error halt behind =>
      rw [hr] at hs
      have hsettled : Settled (action machine) := by
        intro last hl
        rw [hr] at hl
        cases hl
        exact hs behind rfl
      rw [h machine hsettled, hr]

theorem ite {test : Prop} [Decidable test] {yes no deeperYes deeperNo : Eval α}
    (hy : Below yes deeperYes) (hn : Below no deeperNo) :
    Below (if test then yes else no) (if test then deeperYes else deeperNo) := by
  by_cases h : test
  · rw [if_pos h, if_pos h]
    exact hy
  · rw [if_neg h, if_neg h]
    exact hn

end Below

end Eval

open Eval

/-! ### Interruption -/

/-- Everything is in play, and an evaluation may be interrupted anywhere. -/
def Regime.interrupted : Regime where
  holds _ := True
  frame _ _ := True
  later _ _ := True
  change := id
  cut _ _ := True

namespace Regime

theorem interrupted_fits (machine : Machine) (value : Value) : interrupted.Fits machine value := by
  cases value <;> trivial

theorem interrupted_lawful : interrupted.Lawful where
  later_refl _ := trivial
  later_trans _ _ := trivial
  frame_later _ _ := trivial
  cut_later _ _ := trivial
  read _ _ _ := ⟨rfl, fun value _ => interrupted_fits _ value⟩
  store _ _ _ _ _ := ⟨rfl, trivial, trivial⟩
  enter _ _ _ := ⟨rfl, ⟨trivial, trivial⟩, trivial⟩
  count _ := ⟨rfl, rfl, trivial, trivial⟩
  display _ _ := ⟨rfl, trivial, trivial⟩

/-- What matches up to interruptions comes to the same if it is settled. -/
theorem below_of_matches {action deeper : Eval Value} (h : ∀ machine,
    interrupted.comparison.Matches interrupted.comparison.Fits machine deeper action) :
    Below action deeper := by
  intro machine hs
  have hmatch := h machine
  change interrupted.comparison.Outcome _ machine (deeper machine) (action machine) at hmatch
  generalize deeper machine = result, action machine = result' at hmatch hs
  cases hmatch with
  | value _ hv =>
      obtain ⟨rfl, -⟩ := Sphere.fits_iff.mp hv
      rfl
  | halt _ _ => exact (congrArg (EStateM.Result.error · _) (Halt.relocate_id _)).symm
  | cutShort _ _ _ => exact absurd rfl (hs _)
  | cutBefore _ _ _ => exact absurd rfl (hs _)

/-- What is settled at the lesser depth has not been interrupted. -/
theorem evaluates_of_below {eval deeper : Evaluator}
    (he : ∀ node frame, Below (eval node frame) (deeper node frame)) :
    interrupted.comparison.accord.Evaluates deeper eval := by
  refine interrupted.evaluates_iff.mp fun node frame machine _ _ => ?_
  have hbelow := he node frame machine
  change interrupted.comparison.Outcome _ machine (deeper node frame machine)
    (eval node frame machine)
  generalize deeper node frame machine = result, eval node frame machine = result' at hbelow
  cases result' with
  | ok value behind =>
      rw [hbelow (settled_ok value behind)]
      exact .value ⟨trivial, trivial⟩ ⟨rfl, interrupted_fits behind value⟩
  | error halt behind =>
      cases halt with
      | fault found =>
          rw [hbelow fun _ h => nomatch h]
          exact .halt ⟨trivial, trivial⟩ trivial
      | tooDeep =>
          cases result with
          | ok value last =>
              exact .cutShort ⟨trivial, trivial⟩ ⟨rfl, interrupted_fits last value⟩ trivial
          | error halt last => exact .cutBefore ⟨trivial, trivial⟩ trivial trivial

end Regime

/-! ### Trees -/

namespace Evaluator

open Regime

variable {eval deeper : Evaluator} (he : ∀ node frame, Below (eval node frame) (deeper node frame))

include he

theorem statements_below (frame : FrameId) (last : Value) (slots : List (Option Node)) :
    Below (statements eval frame last slots) (statements deeper frame last slots) :=
  below_of_matches fun machine => interrupted_lawful.comparison.accord.statements
    (evaluates_of_below he) trivial trivial (interrupted.slots_self _ slots)
    (Sphere.fits_iff.mpr ⟨rfl, interrupted_fits machine last⟩)

theorem cascades_below (frame : FrameId) (span : Span) (receiver last : Value)
    (slots : List (Option Node)) :
    Below (cascades eval frame span receiver last slots)
      (cascades deeper frame span receiver last slots) :=
  below_of_matches fun machine => interrupted_lawful.comparison.accord.cascades
    (evaluates_of_below he) trivial trivial (interrupted.slots_self _ slots) span
    (Sphere.fits_iff.mpr ⟨rfl, interrupted_fits machine receiver⟩)
    (Sphere.fits_iff.mpr ⟨rfl, interrupted_fits machine last⟩)

theorem runs_below (frame : FrameId) (span : Span) (receiver : Value) (slots : List (Option Node)) :
    Below (runs eval frame span receiver slots) (runs deeper frame span receiver slots) :=
  below_of_matches fun machine => interrupted_lawful.comparison.accord.runs
    (evaluates_of_below he) trivial trivial (interrupted.slots_self _ slots) span
    (Sphere.fits_iff.mpr ⟨rfl, interrupted_fits machine receiver⟩)

theorem expression_below (node : Node) (frame : FrameId) :
    Below (expression eval node frame) (expression deeper node frame) :=
  below_of_matches fun _ => interrupted_lawful.comparison.accord.expression (evaluates_of_below he)
    trivial trivial rfl (interrupted.slot_self _) (interrupted.slots_self _ _)

theorem step_below (node : Node) (frame : FrameId) :
    Below (step eval node frame) (step deeper node frame) :=
  below_of_matches fun machine => interrupted_lawful.comparison.accord.step_evaluates
    (evaluates_of_below he) node node frame machine ⟨rfl, trivial⟩ trivial trivial

end Evaluator

theorem evalUpTo_below_succ (depth : Nat) (node : Node) (frame : FrameId) :
    Below (evalUpTo depth node frame) (evalUpTo (depth + 1) node frame) := by
  induction depth generalizing node frame with
  | zero => exact .tooDeep _
  | succ depth ih => exact Evaluator.step_below ih node frame

/-- A settled evaluation comes to the same wherever it may nest deeper. -/
theorem evalUpTo_below {depth larger : Nat} (h : depth ≤ larger) (node : Node) (frame : FrameId) :
    Below (evalUpTo depth node frame) (evalUpTo larger node frame) := by
  induction h with
  | refl => exact .refl _
  | step _ ih => exact ih.trans (evalUpTo_below_succ _ node frame)

/-- Two settled evaluations of a tree come to the same. -/
theorem evalUpTo_eq_of_settled {depth depth' : Nat} {node : Node} {frame : FrameId}
    {machine : Machine} (h : Settled (evalUpTo depth node frame machine))
    (h' : Settled (evalUpTo depth' node frame machine)) :
    evalUpTo depth node frame machine = evalUpTo depth' node frame machine := by
  have hle := evalUpTo_below (Nat.le_max_left depth depth') node frame machine h
  have hle' := evalUpTo_below (Nat.le_max_right depth depth') node frame machine h'
  exact hle.symm.trans hle'

end MiniSmalltalk
