import MiniSmalltalk.Proofs.Evaluation.Stability

/-! # Where frames come from

Every frame but a root frame is made for the call of a block. Traced evaluation is evaluation on a
stage that takes down what every frame is made for, and comes to the same otherwise. What holds of
the single ways to touch a machine and carries over from one stretch of an evaluation to the next
holds of traced evaluations as a whole. -/

namespace MiniSmalltalk

def Origin.Declares (origin : Origin) (name : String) : Prop :=
  ∃ block ∈ origin, name ∈ block.temporaries ∨ name ∈ block.arguments

/-- A computation on a machine that takes down the origins of the frames it makes, in order. -/
def Traced (α : Type) : Type := Machine → EStateM.Result Halt Machine α × List Origin

namespace Traced

instance monad : Monad Traced where
  pure value := fun machine => (.ok value machine, [])
  bind traced next := fun machine =>
    match traced machine with
    | (.ok value behind, made) =>
        let (result, more) := next value behind
        (result, made ++ more)
    | (.error halt behind, made) => (.error halt behind, made)

instance stage : Stage Traced where
  touch action := fun machine => (action machine, [])
  newFrame origin bindings := fun machine =>
    (Eval.newFrame (origin.map Block.frame) bindings machine, [origin])

def evaluate (depth : Nat) (tree : Option Node) (frame : Option FrameId) : Traced Value :=
  evaluateBy (Evaluator.upTo depth) tree frame

variable {α β : Type}

/-- The computation without its trace. -/
def erase (traced : Traced α) : Eval α := fun machine => (traced machine).1

section

variable {traced : Traced α} {next : α → Traced β} {machine behind : Machine}

theorem bind_of_ok {value : α} (h : traced.erase machine = .ok value behind) :
    (traced >>= next) machine =
      ((next value behind).1, (traced machine).2 ++ (next value behind).2) := by
  cases hr : traced machine with
  | mk result made =>
      obtain rfl : result = .ok value behind := by rwa [erase, hr] at h
      simp only [Bind.bind, hr]

theorem bind_of_error {halt : Halt} (h : traced.erase machine = .error halt behind) :
    (traced >>= next) machine = (.error halt behind, (traced machine).2) := by
  cases hr : traced machine with
  | mk result made =>
      obtain rfl : result = .error halt behind := by rwa [erase, hr] at h
      simp only [Bind.bind, hr]

theorem erase_bind :
    (traced >>= next).erase = traced.erase >>= fun value => (next value).erase := by
  funext machine
  cases hr : traced.erase machine with
  | ok value behind => rw [erase, bind_of_ok hr, Eval.bind_of_ok hr, erase]
  | error halt behind => rw [erase, bind_of_error hr, Eval.bind_of_error hr]

end

end Traced

/-! ### Passages -/

/-- How one machine may turn into another while frames of some origins are made. -/
abbrev Passage := Machine → List Origin → Machine → Prop

/-- The ways to touch a machine are passages, and so is one passage after another. -/
structure Passage.Lawful (passage : Passage) : Prop where
  still : ∀ {machine behind}, behind.heap = machine.heap → behind.notices = machine.notices →
    passage machine [] behind
  trans : ∀ {first second third made more}, passage first made second →
    passage second more third → passage first (made ++ more) third
  store : ∀ {machine id}, machine.heap.WellFormed → id < machine.heap.size → ∀ name span value,
    passage machine [] (machine.store id name span value)
  enter : ∀ {machine block arguments}, machine.heap.WellFormed →
    arguments.length = block.arity →
    passage machine [some block]
      (machine.pushFrame (some block.frame) (Message.callBindings block arguments)).2
  root : ∀ {machine}, machine.heap.WellFormed →
    passage machine [none] (machine.pushFrame none []).2

/-- Names stay stable, and nothing is interrupted. -/
def Regime.steady : Regime := { stable with cut := fun _ _ => False }

theorem Regime.steady_lawful : steady.Lawful :=
  { stable_lawful with cut_later := fun hcut _ => hcut }

open Regime

namespace Passage

variable (passage : Passage)

/-- An evaluation and a traced computation come to the same, and the evaluation is a passage on
which frames are made for what has been taken down. -/
def accord : Accord Eval Traced where
  toTerms := steady.comparison.toTerms
  relates post machine action traced :=
    steady.comparison.Matches post machine action traced.erase ∧
      passage machine (traced machine).2 (Eval.left (action machine))

variable {passage}

namespace Lawful

variable (law : passage.Lawful)

include law

theorem bind {α β : Type} {post : Machine → α → α → Prop} {final : Machine → β → β → Prop}
    {machine : Machine} {action : Eval α} {traced : Traced α} {next : α → Eval β}
    {tracedNext : α → Traced β} (h : passage.accord.relates post machine action traced)
    (hn : ∀ value value' behind, passage.accord.After machine behind → post behind value value' →
      passage.accord.relates final behind (next value) (tracedNext value')) :
    passage.accord.relates final machine (action >>= next) (traced >>= tracedNext) := by
  obtain ⟨hmatch, hpasses⟩ := h
  refine ⟨?_, ?_⟩
  · rw [Traced.erase_bind]
    exact steady_lawful.comparison.bind hmatch fun value value' behind ha hp =>
      (hn value value' behind ha hp).1
  · change steady.comparison.Outcome _ machine (action machine) (traced.erase machine) at hmatch
    cases hr : action machine with
    | error halt behind =>
        rw [hr] at hmatch hpasses
        rw [Eval.bind_of_error hr]
        generalize htraced : traced.erase machine = result at hmatch
        cases hmatch with
        | halt _ _ =>
            rw [Traced.bind_of_error htraced]
            exact hpasses
        | cutBefore _ _ hcut => exact hcut.elim
    | ok value behind =>
        rw [hr] at hmatch hpasses
        rw [Eval.bind_of_ok hr]
        generalize htraced : traced.erase machine = result at hmatch
        cases hmatch with
        | value ha hp =>
            rw [Traced.bind_of_ok htraced]
            exact law.trans hpasses (hn _ _ _ ha hp).2
        | cutShort _ _ hcut => exact hcut.elim

/-- Traced computations are in accord with evaluations. -/
theorem accord : passage.accord.Lawful where
  toLawful := steady_lawful.comparison.toLawful
  pure hm hp := ⟨steady_lawful.comparison.pure hm hp, law.still rfl rfl⟩
  bind := law.bind
  fail hm hc span := ⟨steady_lawful.comparison.accord.fail hm hc span, law.still rfl rfl⟩
  read hm hf hname := ⟨steady_lawful.comparison.accord.read hm hf hname, law.still rfl rfl⟩
  store := by
    intro machine id name value value' hm hf hname hv span
    refine ⟨steady_lawful.comparison.accord.store hm hf hname hv span, ?_⟩
    rw [Eval.store_apply]
    exact law.store hm hf name span value
  newBlock hm hf hblock :=
    ⟨steady_lawful.comparison.accord.newBlock hm hf hblock, law.still rfl rfl⟩
  enter := by
    rintro machine block _ arguments arguments' hm ⟨rfl, hb⟩ ha hcount
    exact ⟨steady_lawful.comparison.accord.enter hm ⟨rfl, hb⟩ ha hcount, law.enter hm hcount⟩
  display hm text := ⟨steady_lawful.comparison.accord.display hm text, law.still rfl rfl⟩

/-- Traced evaluation comes to what evaluation does, and every evaluation is a passage. -/
theorem evaluate_traced {machine : Machine} (hm : machine.heap.WellFormed) (depth : Nat)
    (tree : Option Node) {frame : Option FrameId} (hf : ∀ id ∈ frame, id < machine.heap.size) :
    (Traced.evaluate depth tree frame machine).1 = evaluate depth tree frame machine ∧
      passage machine (Traced.evaluate depth tree frame machine).2
        (Eval.left (evaluate depth tree frame machine)) := by
  have hstop : passage.accord.Evaluates (evalUpTo 0) (Evaluator.upTo 0) :=
    fun _ _ _ _ _ hm _ => ⟨steady_lawful.comparison.halt hm trivial, law.still rfl rfl⟩
  have hframe : passage.accord.relates (fun behind id id' => id' = id ∧ id < behind.heap.size)
      machine (Eval.frameOrNew frame) (Eval.frameOrNew frame) := by
    cases frame with
    | some id => exact law.accord.pure hm ⟨rfl, hf id rfl⟩
    | none =>
        have hafter : steady.After machine (machine.pushFrame none []).2 :=
          ⟨hm.push (by simp) (by simp [Bindings.Holding]), .push machine.heap ⟨none, []⟩⟩
        have hsize : machine.heap.size < (machine.heap.push ⟨none, []⟩).size := by simp
        exact ⟨Comparison.Lawful.newFrame rfl hafter hsize, law.root hm⟩
  obtain ⟨hmatch, hpasses⟩ :=
    law.accord.evaluateBy (law.accord.upTo_evaluates hstop depth) (steady.tree_self tree) hframe
  have hsame := (steady.obeys_fits_iff.mpr hmatch).eq_exchange fun _ _ hcut => hcut
  have hexchange : ∀ result : EStateM.Result Halt Machine Value, steady.exchange result = result :=
    fun result => by cases result <;> rfl
  exact ⟨hsame.trans (hexchange _), hpasses⟩

end Lawful

end Passage

end MiniSmalltalk
