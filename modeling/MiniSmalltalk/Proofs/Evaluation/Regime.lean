import MiniSmalltalk.Proofs.Evaluation.Comparison
import MiniSmalltalk.Proofs.Object.Holding

/-! # Regimes of evaluation

An evaluation touches its machine in five ways: it reads a variable, assigns to one, enters the
frame of a block, makes a block and shows a text. A regime says which machines and frames are
in play, how one machine may follow another, and how machines may be exchanged. If the five ways
respect a regime, every evaluation does. -/

namespace MiniSmalltalk

/-- What evaluations are to respect. -/
structure Regime where
  /-- The machines in play. -/
  holds : Machine → Prop
  /-- The frames in which trees may be evaluated and blocks may have been made. -/
  frame : Machine → FrameId → Prop
  /-- How a machine may follow another. -/
  later : Machine → Machine → Prop
  /-- What a machine may be exchanged for. -/
  change : Machine → Machine
  /-- Where an evaluation may be interrupted that goes on to a machine. -/
  cut : Machine → Machine → Prop

namespace Regime

variable (regime : Regime)

/-- Trees are what they are, and blocks are in play if their frames are. -/
def sphere : Sphere where
  holds := regime.holds
  later := regime.later
  frame := regime.frame
  reads _ := True
  stray _ := True
  block machine block := regime.frame machine block.frame
  tree _ _ := True

/-- The exchange of one machine for another as a comparison. -/
def comparison : Comparison where
  toTerms := regime.sphere.terms
  change := regime.change
  halts _ := True
  cut := regime.cut

/-- A value whose frame, if it is a block, is in play. -/
abbrev Fits (machine : Machine) : Value → Prop := regime.sphere.Fits machine

abbrev After (machine behind : Machine) : Prop := regime.comparison.After machine behind

/-- The five ways to touch a machine respect a regime. -/
structure Lawful : Prop where
  later_refl : ∀ machine, regime.later machine machine
  later_trans : ∀ {first second third}, regime.later first second → regime.later second third →
    regime.later first third
  frame_later : ∀ {machine behind id}, regime.later machine behind → regime.frame machine id →
    regime.frame behind id
  cut_later : ∀ {middle machine behind}, regime.cut middle machine →
    regime.later machine behind → regime.cut middle behind
  read : ∀ {machine id}, regime.holds machine → regime.frame machine id → ∀ name,
    (regime.change machine).heap.get? id name = machine.heap.get? id name ∧
      ∀ value, machine.heap.get? id name = some value → regime.Fits machine value
  store : ∀ {machine id value}, regime.holds machine → regime.frame machine id →
    regime.Fits machine value → ∀ name span,
    (regime.change machine).store id name span value =
        regime.change (machine.store id name span value) ∧
      regime.After machine (machine.store id name span value)
  enter : ∀ {machine id bindings}, regime.holds machine → regime.frame machine id →
    bindings.Holding (regime.Fits machine) →
    (regime.change machine).pushFrame (some id) bindings =
        (machine.heap.size, regime.change (machine.pushFrame (some id) bindings).2) ∧
      regime.After machine (machine.pushFrame (some id) bindings).2 ∧
      regime.frame (machine.pushFrame (some id) bindings).2 machine.heap.size
  count : ∀ {machine}, regime.holds machine →
    (regime.change machine).blocks = machine.blocks ∧
      { regime.change machine with blocks := machine.blocks + 1 } =
        regime.change { machine with blocks := machine.blocks + 1 } ∧
      regime.After machine { machine with blocks := machine.blocks + 1 }
  display : ∀ {machine}, regime.holds machine → ∀ text,
    { regime.change machine with
        transcript := (regime.change machine).transcript.append text } =
        regime.change { machine with transcript := machine.transcript.append text } ∧
      regime.After machine { machine with transcript := machine.transcript.append text }

/-- What an evaluation has come to, with its machine exchanged. -/
def exchange {α : Type} : EStateM.Result Halt Machine α → EStateM.Result Halt Machine α
  | .ok value machine => .ok value (regime.change machine)
  | .error halt machine => .error halt (regime.change machine)

/-- From a machine, an evaluation stays in play, and another one comes to the same from the machine
that is exchanged for it, unless it is interrupted on the way. -/
def Obeys {α : Type} (post : Machine → α → Prop) (machine : Machine) (action other : Eval α) :
    Prop :=
  regime.comparison.Matches (fun behind value value' => value' = value ∧ post behind value) machine
    action other

abbrev Anything {α : Type} (_ : Machine) (_ : α) : Prop := True

/-- One evaluator matches another wherever frames and machines are in play. -/
def Evaluates (eval other : Evaluator) : Prop :=
  ∀ node id machine, regime.holds machine → regime.frame machine id →
    regime.Obeys regime.Fits machine (eval node id) (other node id)

/-! ### Trees stand for themselves -/

theorem tree_self {role : Role} (tree : Option Node) :
    Option.Rel (regime.comparison.tree role) tree tree :=
  Sphere.tree_self fun _ _ => trivial

theorem slot_self {role : Role} (slot : Option Node) :
    regime.comparison.Slot (regime.comparison.tree role) slot slot :=
  Sphere.slot_self (fun _ => trivial) fun _ _ => ⟨rfl, trivial⟩

theorem slots_self (role : Role) (slots : List (Option Node)) :
    regime.comparison.Slots role slots slots :=
  Sphere.slots_self (fun _ => trivial) fun _ _ => trivial

theorem opens_self (role : Role) (node : Node) : regime.comparison.Opens role node node := by
  refine ⟨⟨rfl, rfl, rfl⟩, ?_⟩
  cases role with
  | evaluated =>
      simp only [Terms.Parts]
      split
      · exact regime.slots_self _ _
      · exact ⟨regime.slot_self _, regime.slots_self _ _⟩
      · refine ⟨Sphere.slot_self (fun _ => trivial) fun target _ => ?_, regime.slot_self _⟩
        exact ⟨⟨rfl, rfl, rfl⟩, trivial⟩
      · exact regime.slot_self _
      · trivial
      · trivial
      · trivial
      · exact fun _ _ _ hf => ⟨rfl, hf⟩
      · trivial
  | run => exact Terms.parts_run (fun _ => trivial) fun _ => regime.slots_self _ _
  | message => exact Terms.parts_message (fun _ => trivial) fun _ => regime.slots_self _ _

/-! ### What an evaluation has come to -/

namespace Obeys

variable {regime} {α : Type} {post : Machine → α → Prop} {machine : Machine}
  {action other : Eval α} (h : regime.Obeys post machine action other)

include h

theorem after_left : regime.After machine (Eval.left (action machine)) :=
  Comparison.Outcome.after_left h

theorem ends : Eval.Ends (fun value behind => regime.After machine behind ∧ post behind value)
    (fun _ behind => regime.After machine behind) (action machine) := by
  have hend := Comparison.Outcome.ends h
  cases hr : action machine with
  | ok value behind =>
      rw [hr] at hend
      obtain ⟨hafter, _, -, hp⟩ := hend
      exact ⟨hafter, hp⟩
  | error halt behind =>
      rw [hr] at hend
      exact hend.1

/-- An evaluation that cannot be interrupted comes to the same on the exchanged machine. -/
theorem eq_exchange (hc : ∀ middle behind, ¬ regime.cut middle behind) :
    other (regime.change machine) = regime.exchange (action machine) := by
  unfold Obeys Comparison.Matches at h
  change regime.comparison.Outcome _ _ _ (other (regime.change machine)) at h
  generalize action machine = result, other (regime.change machine) = result' at h
  cases h with
  | value _ hp =>
      obtain ⟨rfl, -⟩ := hp
      rfl
  | halt _ _ => exact congrArg (EStateM.Result.error · _) (Halt.relocate_id _)
  | cutShort _ _ hcut => exact absurd hcut (hc _ _)
  | cutBefore _ _ hcut => exact absurd hcut (hc _ _)

end Obeys

theorem obeys_fits_iff {machine : Machine} {action other : Eval Value} :
    regime.Obeys regime.Fits machine action other ↔
      regime.comparison.Matches regime.comparison.Fits machine action other := by
  have hfits : regime.comparison.Fits =
      fun behind value value' => value' = value ∧ regime.Fits behind value :=
    funext fun _ => funext fun _ => funext fun _ => propext Sphere.fits_iff
  rw [Obeys, hfits]

theorem evaluates_iff {eval other : Evaluator} :
    regime.Evaluates eval other ↔ regime.comparison.accord.Evaluates eval other := by
  constructor
  · rintro h node _ id machine ⟨rfl, -⟩ hm hf
    exact regime.obeys_fits_iff.mp (h _ id machine hm hf)
  · intro h node id machine hm hf
    exact regime.obeys_fits_iff.mpr (h node node id machine ⟨rfl, trivial⟩ hm hf)

/-! ### Rules -/

namespace Lawful

variable {regime} (law : regime.Lawful) {α β : Type} {machine : Machine}
  {post : Machine → α → Prop}

include law

/-- The ways to touch a machine match, and so does everything that is made of them. -/
theorem comparison : regime.comparison.Lawful where
  frame_after ha hid := law.frame_later ha.2 hid
  block_after ha hb := ⟨hb.1, law.frame_later ha.2 hb.2⟩
  opens := by
    rintro role node _ ⟨rfl, -⟩
    exact regime.opens_self role _
  body := by
    rintro machine _ block ⟨rfl, -⟩
    exact ⟨rfl, regime.tree_self _⟩
  later_refl := law.later_refl
  later_trans := law.later_trans
  cut_later := law.cut_later
  halts _ _ := trivial
  read := by
    intro machine id name hm hf _
    obtain ⟨hsame, hfits⟩ := law.read hm hf name
    change Option.Rel _ _ ((regime.change machine).heap.get? id name)
    rw [hsame]
    exact Sphere.found_self hfits
  store := by
    intro machine id name value value' hm hf _ hv span
    obtain ⟨rfl, hfits⟩ := Sphere.fits_iff.mp hv
    exact law.store hm hf hfits name span
  enter := by
    rintro machine block _ arguments arguments' hm ⟨rfl, hb⟩ ha _
    obtain ⟨rfl, hfits⟩ := Sphere.forall₂_fits_iff.mp ha
    exact law.enter hm hb (Bindings.Holding.callBindings _ trivial hfits)
  count := law.count
  display := law.display

theorem fits_later {behind : Machine} (h : regime.later machine behind) {value : Value}
    (hv : regime.Fits machine value) : regime.Fits behind value := by
  cases value with
  | nil | string | number => trivial
  | block literal => exact law.frame_later h hv

variable (hm : regime.holds machine)

include hm

theorem pure {value : α} (h : post machine value) :
    regime.Obeys post machine (Pure.pure value) (Pure.pure value) :=
  law.comparison.pure hm ⟨rfl, h⟩

theorem throw (halt : Halt) : regime.Obeys post machine (throw halt) (throw halt) := by
  have hhalt : regime.Obeys post machine (Eval.halt halt) (Eval.halt (halt.relocate id)) :=
    law.comparison.halt hm trivial
  rwa [Halt.relocate_id] at hhalt

theorem frameOrNew {frame : Option FrameId} (hf : ∀ id ∈ frame, regime.frame machine id)
    (hmade : (regime.change machine).pushFrame none [] =
      (machine.heap.size, regime.change (machine.pushFrame none []).2))
    (ha : regime.After machine (machine.pushFrame none []).2)
    (hid : regime.frame (machine.pushFrame none []).2 machine.heap.size) :
    regime.Obeys regime.frame machine (Eval.frameOrNew frame) (Eval.frameOrNew frame) :=
  law.comparison.frameOrNew hm hf hmade ha hid

omit hm in
theorem bind {action other : Eval α} {next otherNext : α → Eval β} {final : Machine → β → Prop}
    (h : regime.Obeys post machine action other)
    (hn : ∀ value behind, regime.After machine behind → post behind value →
      regime.Obeys final behind (next value) (otherNext value)) :
    regime.Obeys final machine (action >>= next) (other >>= otherNext) := by
  refine law.comparison.bind h ?_
  rintro value _ behind ha ⟨rfl, hp⟩
  exact hn _ behind ha hp

end Lawful

/-! ### Evaluations -/

namespace Lawful

variable {regime} (law : regime.Lawful) {eval other : Evaluator}

include law

/-- Evaluators that match give rise to evaluators that match. -/
theorem step_obeys (he : regime.Evaluates eval other) :
    regime.Evaluates (Evaluator.step eval) (Evaluator.step other) :=
  regime.evaluates_iff.mpr (law.comparison.accord.step_evaluates (regime.evaluates_iff.mp he))

/-- Whatever the five ways to touch a machine respect, all evaluations do. -/
theorem evalUpTo_obeys (depth : Nat) : regime.Evaluates (evalUpTo depth) (evalUpTo depth) :=
  regime.evaluates_iff.mpr (law.comparison.evalUpTo trivial depth)

variable {machine : Machine}

theorem evaluateBy_obeys (he : regime.Evaluates eval other) (tree : Option Node)
    {frame : Option FrameId}
    (hf : regime.Obeys regime.frame machine (Eval.frameOrNew frame) (Eval.frameOrNew frame)) :
    regime.Obeys regime.Fits machine (evaluateBy eval tree frame)
      (evaluateBy other tree frame) := by
  exact regime.obeys_fits_iff.mpr
    (law.comparison.accord.evaluateBy (regime.evaluates_iff.mp he) (regime.tree_self tree) hf)

theorem evaluate_obeys (depth : Nat) (tree : Option Node) {frame : Option FrameId}
    (hf : regime.Obeys regime.frame machine (Eval.frameOrNew frame) (Eval.frameOrNew frame)) :
    regime.Obeys regime.Fits machine (evaluate depth tree frame) (evaluate depth tree frame) :=
  law.evaluateBy_obeys (law.evalUpTo_obeys depth) tree hf

theorem statements_obeys (he : regime.Evaluates eval other) (hm : regime.holds machine)
    {frame : FrameId} (hf : regime.frame machine frame) (slots : List (Option Node)) {last : Value}
    (hl : regime.Fits machine last) :
    regime.Obeys regime.Fits machine (Evaluator.statements eval frame last slots)
      (Evaluator.statements other frame last slots) := by
  exact regime.obeys_fits_iff.mpr (law.comparison.accord.statements (regime.evaluates_iff.mp he) hm
    hf (regime.slots_self _ slots) (Sphere.fits_iff.mpr ⟨rfl, hl⟩))

variable (hm : regime.holds machine)

include hm

theorem call_obeys (he : regime.Evaluates eval other) {literal : Block}
    (hb : regime.frame machine literal.frame) {arguments : List Value}
    (ha : ∀ argument ∈ arguments, regime.Fits machine argument) (span : Span) :
    regime.Obeys regime.Fits machine (Message.call eval literal arguments span)
      (Message.call other literal arguments span) :=
  regime.obeys_fits_iff.mpr (law.comparison.accord.call hm (regime.evaluates_iff.mp he) ⟨rfl, hb⟩
    (Sphere.forall₂_fits_iff.mpr ⟨rfl, ha⟩) span)

theorem performWith_obeys (he : regime.Evaluates eval other) {receiver : Value}
    (hr : regime.Fits machine receiver) (message : Message)
    (ha : ∀ argument ∈ message.arguments, regime.Fits machine argument) :
    regime.Obeys regime.Fits machine (message.performWith eval receiver)
      (message.performWith other receiver) :=
  regime.obeys_fits_iff.mpr (law.comparison.accord.performWith hm (regime.evaluates_iff.mp he)
    (Sphere.fits_iff.mpr ⟨rfl, hr⟩) ⟨rfl, rfl, Sphere.forall₂_fits_iff.mpr ⟨rfl, ha⟩, rfl⟩)

end Lawful

end Regime

end MiniSmalltalk
