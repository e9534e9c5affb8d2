import MiniSmalltalk.Proofs.Evaluation.Regime
import MiniSmalltalk.Proofs.Object.Resolution

/-! # Stability of names

Evaluations keep heaps well-formed and never make a name resolve elsewhere. This is so not only
from beginning to end: an evaluation can be looked at wherever it enters or leaves a node, and of
two such points the later one resolves every name as the earlier one does. -/

namespace MiniSmalltalk

/-! ### The regime of stable names -/

/-- Heaps stay well-formed, and names resolve as before. -/
def Regime.stable : Regime where
  holds machine := machine.heap.WellFormed
  frame machine id := id < machine.heap.size
  later machine behind := machine.heap.Stable behind.heap
  change := id
  cut middle machine := middle.heap.WellFormed ∧ middle.heap.Stable machine.heap

namespace Regime

theorem stable_fits (machine : Machine) :
    stable.Fits machine = Value.Within machine.heap.size := by
  funext value
  cases value <;> rfl

theorem stable_lawful : stable.Lawful where
  later_refl machine := .refl machine.heap
  later_trans := .trans
  frame_later h hid := Nat.lt_of_lt_of_le hid h.size_le
  cut_later hcut h := ⟨hcut.1, hcut.2.trans h⟩
  read := by
    intro machine id hm _ name
    refine ⟨rfl, fun value hg => ?_⟩
    rw [stable_fits]
    exact hm.captured.get? hg
  store := by
    intro machine id value hm _ hv name span
    rw [stable_fits] at hv
    exact ⟨rfl, hm.set hv id name, .set hm id name value⟩
  enter := by
    intro machine id bindings hm hid hb
    rw [stable_fits] at hb
    refine ⟨rfl, ⟨hm.push ?_ hb, .push machine.heap ⟨some id, bindings⟩⟩, ?_⟩
    · rintro above ⟨⟩
      exact hid
    · change machine.heap.size < (machine.heap.push ⟨some id, bindings⟩).size
      rw [Heap.size_push]
      exact Nat.lt_succ_self _
  count hm := ⟨rfl, rfl, hm, .refl _⟩
  display hm _ := ⟨rfl, hm, .refl _⟩

/-- Whatever an evaluation was interrupted at, names resolve as before in the end. -/
theorem stable_left {α : Type} {post : Machine → α → Prop} {machine : Machine}
    {action other : Eval α} (h : stable.Obeys post machine action other) :
    (Eval.left (other machine)).heap.WellFormed ∧
      (Eval.left (other machine)).heap.Stable (Eval.left (action machine)).heap := by
  change stable.comparison.Outcome _ machine (action machine) (other machine) at h
  generalize action machine = result, other machine = result' at h
  cases h with
  | value ha _ => exact ⟨ha.1, .refl _⟩
  | halt ha _ => exact ⟨ha.1, .refl _⟩
  | cutShort _ _ hcut => exact hcut
  | cutBefore _ _ hcut => exact hcut

end Regime

/-! ### Evaluations under watch -/

/-- When an evaluation can be looked at. -/
inductive Moment where
  | entering
  | leaving

/-- Picks points of an evaluation. -/
abbrev Watch := Moment → Node → FrameId → Machine → Bool

namespace Watch

def never : Watch := fun _ _ _ _ => false

/-- A watch picks all points that another one picks, so it stops an evaluation no later. -/
def Includes (watch other : Watch) : Prop :=
  ∀ moment node frame machine, other moment node frame machine = true →
    watch moment node frame machine = true

/-- Stops at a point that is picked. -/
def check (watch : Watch) (moment : Moment) (node : Node) (frame : FrameId) : Eval Unit :=
  fun machine =>
    if watch moment node frame machine then .error .tooDeep machine else .ok () machine

end Watch

/-- Evaluates a node up to the first point that a watch picks. -/
def evalWatched (watch : Watch) : Nat → Evaluator
  | 0 => fun _ _ => throw .tooDeep
  | depth + 1 => fun node frame => do
      watch.check .entering node frame
      let value ← Evaluator.step (evalWatched watch depth) node frame
      watch.check .leaving node frame
      return value

theorem evalWatched_never (depth : Nat) : evalWatched .never depth = evalUpTo depth := by
  have hcheck : ∀ moment node frame, Watch.never.check moment node frame = pure () :=
    fun _ _ _ => rfl
  induction depth with
  | zero => rfl
  | succ depth ih =>
      funext node frame
      simp only [evalWatched, evalUpTo_succ, hcheck, ih, pure_bind, bind_pure]

open Regime

theorem Watch.check_obeys {watch other : Watch} (h : watch.Includes other) {machine : Machine}
    (hm : machine.heap.WellFormed) (moment : Moment) (node : Node) (frame : FrameId) :
    stable.Obeys Anything machine (other.check moment node frame)
      (watch.check moment node frame) := by
  have hafter : stable.After machine machine := ⟨hm, .refl _⟩
  have hpicked : ∀ {watch : Watch}, watch moment node frame machine = true →
      watch.check moment node frame machine = .error .tooDeep machine := fun h => if_pos h
  have hpassed : ∀ {watch : Watch}, ¬ watch moment node frame machine = true →
      watch.check moment node frame machine = .ok () machine := fun h => if_neg h
  change stable.comparison.Outcome _ machine (other.check moment node frame machine)
    (watch.check moment node frame machine)
  by_cases ho : other moment node frame machine = true
  · rw [hpicked ho, hpicked (h moment node frame machine ho)]
    exact .halt hafter trivial
  · rw [hpassed ho]
    by_cases hw : watch moment node frame machine = true
    · rw [hpicked hw]
      exact .cutShort hafter ⟨rfl, trivial⟩ ⟨hm, .refl _⟩
    · rw [hpassed hw]
      exact .value hafter ⟨rfl, trivial⟩

/-- The watch that picks more points interrupts the evaluation under the other. -/
theorem evalWatched_obeys {watch other : Watch} (h : watch.Includes other) (depth : Nat) :
    stable.Evaluates (evalWatched other depth) (evalWatched watch depth) := by
  have law := stable_lawful
  induction depth with
  | zero => exact fun _ _ _ hm _ => law.throw hm .tooDeep
  | succ depth ih =>
      intro node frame machine hm hf
      apply law.bind (Watch.check_obeys h hm .entering node frame)
      intro _ first ha _
      apply law.bind (law.step_obeys ih node frame first ha.1 (law.frame_later ha.2 hf))
      intro value second hs hv
      apply law.bind (Watch.check_obeys h hs.1 .leaving node frame)
      intro _ third ht _
      exact law.pure ht.1 (law.fits_later ht.2 hv)

end MiniSmalltalk
