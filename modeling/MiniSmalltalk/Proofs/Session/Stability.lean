import MiniSmalltalk.Proofs.Evaluation.Stability
import MiniSmalltalk.Proofs.Session.Safety

/-! # Stability of names over runs

A run evaluates trees and interprets sources one after the other on one machine; a task that
fails leaves its machine to the next one. Whatever a name resolves to at some point of a run, it
resolves to at every later point. -/

namespace MiniSmalltalk

open Eval Regime

theorem evaluateBy_obeys {eval other : Evaluator} (he : stable.Evaluates eval other)
    (tree : Option Node) {frame : Option FrameId} {machine : Machine}
    (hm : machine.heap.WellFormed) (hf : ∀ id ∈ frame, id < machine.heap.size) :
    stable.Obeys stable.Fits machine (evaluateBy eval tree frame)
      (evaluateBy other tree frame) := by
  have law := stable_lawful
  have hafter : stable.After machine (machine.pushFrame none []).2 :=
    ⟨hm.push (by simp) (by simp [Bindings.Holding]), .push machine.heap ⟨none, []⟩⟩
  have hsize : machine.heap.size < (machine.heap.push ⟨none, []⟩).size := by simp
  exact law.evaluateBy_obeys he tree (law.frameOrNew hm hf rfl hafter hsize)

/-! ### Tasks -/

inductive Task where
  | evaluate (depth : Nat) (tree : Option Node) (frame : Option FrameId)
  | interpret (depth : Nat) (file : SourceFile) (frame : FrameId)

namespace Task

/-- The machine that a task leaves, whatever it comes to. -/
def run (machine : Machine) : Task → Machine
  | evaluate depth tree frame => left (MiniSmalltalk.evaluate depth tree frame machine)
  | interpret depth file frame => (MiniSmalltalk.interpret depth file frame machine).machine

def depth : Task → Nat
  | evaluate depth _ _ => depth
  | interpret depth _ _ => depth

def frame : Task → Option FrameId
  | evaluate _ _ frame => frame
  | interpret _ _ frame => some frame

/-- The tree that a task evaluates. A source that is not a program has none. -/
def tree : Task → Option Node
  | evaluate _ tree _ => tree
  | interpret _ file _ => (parseProgram file.text).toOption.bind Parsed.program

/-- The machine on which a task evaluates its tree. -/
def start (machine : Machine) : Task → Machine
  | evaluate _ _ _ => machine
  | interpret _ file _ =>
      { machine.quiet with
        notices := ((parseProgram file.text).toOption.map (unparsedNotices file.text)).getD [] }

/-- The machine at the first point of a task that a watch picks, or in the end. -/
def point (watch : Watch) (machine : Machine) (task : Task) : Machine :=
  left (evaluateBy (evalWatched watch task.depth) task.tree task.frame (task.start machine))

/-- A task is given no frame or one that exists. -/
def Allowed (machine : Machine) (task : Task) : Prop := ∀ id ∈ task.frame, id < machine.heap.size

theorem start_heap (machine : Machine) (task : Task) :
    (task.start machine).heap = machine.heap := by
  cases task <;> rfl

theorem conclude_machine (file : SourceFile) (result : EStateM.Result Halt Machine Value) :
    (Interpretation.conclude file result).machine = left result := by
  cases result with
  | ok value behind => rfl
  | error halt behind => cases halt <;> rfl

/-- A task that is not watched is run to its end. -/
theorem point_never (machine : Machine) (task : Task) :
    task.point .never machine = task.run machine := by
  rw [point, evalWatched_never]
  cases task with
  | evaluate depth tree frame => rfl
  | interpret depth file frame =>
      cases hparsed : parseProgram file.text with
      | error fault =>
          simp only [run, MiniSmalltalk.interpret, tree, start, hparsed]
          rfl
      | ok parsed =>
          simp only [run, interpret_of_parsed hparsed, conclude_machine, tree, start, hparsed]
          rfl

section

variable {machine : Machine} (hm : machine.heap.WellFormed) {task : Task}
  (ht : task.Allowed machine)

include hm ht

theorem watched_obeys {watch other : Watch} (h : watch.Includes other) :
    stable.Obeys stable.Fits (task.start machine)
      (evaluateBy (evalWatched other task.depth) task.tree task.frame)
      (evaluateBy (evalWatched watch task.depth) task.tree task.frame) := by
  have hstart := task.start_heap machine
  refine evaluateBy_obeys (evalWatched_obeys h task.depth) task.tree (hstart ▸ hm) ?_
  rw [hstart]
  exact ht

/-- Of two points of a task, the later one resolves names as the earlier one does. -/
theorem point_stable {watch other : Watch} (h : watch.Includes other) :
    (task.point watch machine).heap.WellFormed ∧
      (task.point watch machine).heap.Stable (task.point other machine).heap :=
  stable_left (watched_obeys hm ht h)

theorem stable_point (watch : Watch) : machine.heap.Stable (task.point watch machine).heap := by
  have hobeys := watched_obeys hm ht (fun _ _ _ _ hw => hw : watch.Includes watch)
  have hlater := hobeys.after_left.2
  rw [← task.start_heap machine]
  exact hlater

theorem run_wellFormed : (task.run machine).heap.WellFormed := by
  rw [← task.point_never]
  exact (point_stable hm ht (fun _ _ _ _ hw => hw)).1

end

end Task

/-! ### Runs -/

/-- Every task of a run is allowed when its turn comes. -/
def Feasible (machine : Machine) : List Task → Prop
  | [] => True
  | task :: tasks => task.Allowed machine ∧ Feasible (task.run machine) tasks

/-- A run of tasks passes a point: its beginning, or a point of one of the tasks. -/
inductive Passes : Machine → List Task → Machine → Prop where
  | start (machine : Machine) (tasks : List Task) : Passes machine tasks machine
  | within {machine : Machine} {task : Task} {tasks : List Task} (watch : Watch) :
      Passes machine (task :: tasks) (task.point watch machine)
  | behind {machine point : Machine} {task : Task} {tasks : List Task} :
      Passes (task.run machine) tasks point → Passes machine (task :: tasks) point

/-- A run of tasks passes two points, one after the other. -/
inductive Follows : Machine → List Task → Machine → Machine → Prop where
  | start {machine later : Machine} {tasks : List Task} : Passes machine tasks later →
      Follows machine tasks machine later
  | within {machine : Machine} {task : Task} {tasks : List Task} {watch other : Watch} :
      watch.Includes other →
      Follows machine (task :: tasks) (task.point watch machine) (task.point other machine)
  | across {machine later : Machine} {task : Task} {tasks : List Task} (watch : Watch) :
      Passes (task.run machine) tasks later →
      Follows machine (task :: tasks) (task.point watch machine) later
  | behind {machine earlier later : Machine} {task : Task} {tasks : List Task} :
      Follows (task.run machine) tasks earlier later →
      Follows machine (task :: tasks) earlier later

theorem Watch.includes_never (watch : Watch) : watch.Includes .never :=
  fun _ _ _ _ h => nomatch h

theorem Passes.stable {machine point : Machine} {tasks : List Task} (h : Passes machine tasks point)
    (hm : machine.heap.WellFormed) (ht : Feasible machine tasks) :
    point.heap.WellFormed ∧ machine.heap.Stable point.heap := by
  induction h with
  | start => exact ⟨hm, .refl _⟩
  | within watch =>
      exact ⟨(Task.point_stable hm ht.1 watch.includes_never).1, Task.stable_point hm ht.1 watch⟩
  | @behind machine point task tasks _ ih =>
      obtain ⟨hpoint, hstable⟩ := ih (Task.run_wellFormed hm ht.1) ht.2
      have htask := Task.stable_point hm ht.1 .never
      rw [task.point_never] at htask
      exact ⟨hpoint, htask.trans hstable⟩

theorem Follows.stable {machine earlier later : Machine} {tasks : List Task}
    (h : Follows machine tasks earlier later) (hm : machine.heap.WellFormed)
    (ht : Feasible machine tasks) :
    later.heap.WellFormed ∧ earlier.heap.Stable later.heap := by
  induction h with
  | start hp => exact hp.stable hm ht
  | @within machine task tasks watch other hw =>
      exact ⟨(Task.point_stable hm ht.1 other.includes_never).1,
        (Task.point_stable hm ht.1 hw).2⟩
  | @across machine later task tasks watch hp =>
      obtain ⟨hlater, hstable⟩ := hp.stable (Task.run_wellFormed hm ht.1) ht.2
      have htask := (Task.point_stable hm ht.1 watch.includes_never).2
      rw [task.point_never] at htask
      exact ⟨hlater, htask.trans hstable⟩
  | behind _ ih => exact ih (Task.run_wellFormed hm ht.1) ht.2

/-- Whatever a name resolves to at some point of a run from a well-formed heap, it resolves to at
every later point, and no frame ever loses a binding. -/
theorem resolution_is_stable (machine : Machine) (hm : machine.heap.WellFormed)
    (tasks : List Task) (ht : Feasible machine tasks) (earlier later : Machine)
    (h : Follows machine tasks earlier later) :
    (∀ (name : String) (frame holder : FrameId), earlier.heap.Resolves name frame holder →
      later.heap.Resolves name frame holder ∧
        later.heap.nearest? frame name = some holder) ∧
    ∀ (frame : FrameId) (name : String), earlier.heap.defines frame name = true →
      later.heap.defines frame name = true := by
  obtain ⟨hlater, hstable⟩ := h.stable hm ht
  refine ⟨?_, hstable.defines⟩
  intro name frame holder hr
  have hresolves := hstable.resolves name frame holder hr
  exact ⟨hresolves, (Heap.nearest?_eq_some_iff hlater).mpr hresolves⟩

theorem resolution_is_stable_in_running_block :
    let first : Task := .interpret 20 ⟨"first", "x := 1. f := [:y | x := y. z := x]"⟩ 0
    let second : Task := .interpret 20 ⟨"second", "f value: 2"⟩ 0
    let watch : Watch := fun _ node frame _ => node.kind == .assignment && frame == 1
    let earlier := second.point watch (first.run .initial)
    (earlier.heap.nearest? 1 "x" = some 0 ∧ earlier.heap.defines 1 "z" = false) ∧
      (second.run (first.run .initial)).heap.nearest? 1 "x" = some 0 := by
  intro first second watch earlier
  have hearlier : earlier.heap.nearest? 1 "x" = some 0 ∧ earlier.heap.defines 1 "z" = false := by
    decide +kernel
  have hfirst : first.Allowed .initial := by
    rintro id ⟨⟩
    decide
  have hsecond : second.Allowed (first.run .initial) := by
    rintro id ⟨⟩
    decide +kernel
  have hwf : (first.run .initial).heap.WellFormed :=
    Task.run_wellFormed Heap.wellFormed_initial hfirst
  have hfollows : Follows .initial [first, second] earlier (second.run (first.run .initial)) := by
    rw [← second.point_never]
    exact .behind (.within watch.includes_never)
  have hresolves : earlier.heap.Resolves "x" 1 0 :=
    (Heap.nearest?_eq_some_iff (Task.point_stable hwf hsecond watch.includes_never).1).mp
      hearlier.1
  have hstable := resolution_is_stable .initial Heap.wellFormed_initial [first, second]
    ⟨hfirst, hsecond, trivial⟩ earlier _ hfollows
  exact ⟨hearlier, (hstable.1 "x" 1 0 hresolves).2⟩

end MiniSmalltalk
