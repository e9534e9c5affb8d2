import MiniSmalltalk.Proofs.Evaluation.Stability
import MiniSmalltalk.Proofs.Object.Region
import MiniSmalltalk.Grammar.Program

/-! # Isolation of frames

An evaluation in a frame knows the frames to which parents and blocks lead from there, and those
that it makes itself. All others it leaves alone, and it would do the same if they were different.
In particular the call of a block has no access to the frame of its caller, unless the block or
an argument comes from there. -/

namespace MiniSmalltalk

/-! ### The regime of a region -/

/-- Evaluations stay in a region; the frames outside may be exchanged for those of a heap. -/
def Regime.confined (region : FrameId → Prop) [DecidablePred region] (other : Heap) : Regime where
  holds machine := machine.heap.Closed region
  frame _ := region
  later machine behind := Heap.SameOutside region machine.heap behind.heap
  change machine := { machine with heap := .graft region other machine.heap }
  cut _ _ := False

namespace Regime

variable (region : FrameId → Prop) [DecidablePred region] (other : Heap)

theorem confined_fits (machine : Machine) :
    (confined region other).Fits machine = Value.CapturedIn region := by
  funext value
  cases value <;> rfl

theorem confined_lawful : (confined region other).Lawful where
  later_refl machine := .refl machine.heap
  later_trans := .trans
  frame_later _ hid := hid
  cut_later hcut _ := hcut
  read := by
    intro machine id hm hid name
    refine ⟨Heap.get?_graft other hm hid name, fun value hg => ?_⟩
    rw [confined_fits]
    exact hm.get? hid hg
  store := by
    intro machine id value hm hid hv name span
    rw [confined_fits] at hv
    change region id at hid
    refine ⟨?_, hm.set hv id name, .set hm hid name value⟩
    simp only [Machine.store, confined, Heap.set_graft other hm hid, Heap.isRoot_graft other hid]
  enter := by
    intro machine id bindings hm hid hb
    rw [confined_fits] at hb
    have hfresh : region machine.heap.size := hm.fresh _ (Nat.le_refl _)
    refine ⟨?_, ⟨hm.push ?_ hb, .push hm _⟩, hfresh⟩
    · simp only [Machine.pushFrame, confined, Heap.size_graft, Heap.graft_push other hfresh]
    · rintro above ⟨⟩
      exact hid
  count hm := ⟨rfl, rfl, hm, .refl _⟩
  display hm _ := ⟨rfl, hm, .refl _⟩

end Regime

/-! ### Isolated evaluations -/

/-- A frame that could be reached before or that has been made since. -/
def Heap.Accessible (before after : Heap) (roots : FrameId → Prop) (id : FrameId) : Prop :=
  before.Reaches roots id ∨ before.size ≤ id ∧ id < after.size

/-- Two machines that may differ in frames outside a region, but in nothing else. -/
structure Machine.Agrees (region : FrameId → Prop) (machine other : Machine) : Prop where
  size : other.heap.size = machine.heap.size
  frame : ∀ id, region id → other.heap.frame? id = machine.heap.frame? id
  blocks : other.blocks = machine.blocks
  transcript : other.transcript = machine.transcript
  notices : other.notices = machine.notices

namespace Eval

/-- What an evaluation has come to, its machine aside. -/
def verdict {α : Type} : EStateM.Result Halt Machine α → Except Halt α
  | .ok value _ => .ok value
  | .error halt _ => .error halt

/-- An evaluation neither changes nor reads a frame that cannot be reached from some frames, and
gets hold of such a frame neither in its value nor in what it binds. -/
structure Isolated (roots : FrameId → Prop) (machine : Machine) (action : Eval Value) : Prop where
  untouched : ∀ id < machine.heap.size, ¬ machine.heap.Reaches roots id →
    (left (action machine)).heap.frame? id = machine.heap.frame? id
  returned : ∀ value behind, action machine = .ok value behind →
    value.CapturedIn (machine.heap.Accessible behind.heap roots)
  stored : ∀ id frame, (left (action machine)).heap.frame? id = some frame →
    machine.heap.frame? id ≠ some frame →
    frame.bindings.Holding
      (Value.CapturedIn (machine.heap.Accessible (left (action machine)).heap roots))
  unread : ∀ other, machine.Agrees (machine.heap.Reaches roots) other →
    verdict (action other) = verdict (action machine) ∧
      (left (action machine)).Agrees
        (machine.heap.Accessible (left (action machine)).heap roots) (left (action other))

variable {roots : FrameId → Prop} {machine : Machine} {action : Eval Value}

theorem verdict_exchange {α : Type} (regime : Regime) (result : EStateM.Result Halt Machine α) :
    verdict (regime.exchange result) = verdict result := by
  cases result <;> rfl

theorem left_exchange {α : Type} (regime : Regime) (result : EStateM.Result Halt Machine α) :
    left (regime.exchange result) = regime.change (left result) := by
  cases result <;> rfl

theorem accessible_of_within {before after : Heap} {value : Value} (hw : value.Within after.size)
    (hc : value.CapturedIn fun id => before.Reaches roots id ∨ before.size ≤ id) :
    value.CapturedIn (before.Accessible after roots) := by
  cases value with
  | nil | string | number => trivial
  | block literal => exact hc.imp_right fun hle => ⟨hle, hw⟩

/-- An evaluation is isolated if it stays in all closed regions to which its roots belong. -/
theorem isolated_of_confined
    (hs : Regime.stable.Obeys Regime.stable.Fits machine action action)
    (hc : ∀ (region : FrameId → Prop) [DecidablePred region] (other : Heap),
      machine.heap.Closed region → (∀ id, roots id → region id) →
      (Regime.confined region other).Obeys (Regime.confined region other).Fits machine action
        action) : Isolated roots machine action := by
  classical
  let region : FrameId → Prop := fun id => machine.heap.Reaches roots id ∨ machine.heap.size ≤ id
  have hclosed : machine.heap.Closed region := machine.heap.closed_reaches roots
  have hobeys : ∀ other, (Regime.confined region other).Obeys
      (Regime.confined region other).Fits machine action action :=
    fun other => hc region other hclosed fun id hid => .inl (.root hid)
  obtain ⟨hleft, hsame⟩ := (hobeys machine.heap).after_left
  have houtside : ∀ id < machine.heap.size, ¬ machine.heap.Reaches roots id → ¬ region id :=
    fun id hlt hid hregion => hregion.elim hid (Nat.not_le_of_lt hlt)
  refine ⟨?_, ?_, ?_, ?_⟩
  · intro id hlt hid
    exact hsame.frame id (houtside id hlt hid)
  · intro value behind hr
    have hwithin := hs.ends
    have hfits := (hobeys machine.heap).ends
    rw [hr] at hwithin hfits
    have hw := hwithin.2
    have hf := hfits.2
    rw [Regime.stable_fits] at hw
    rw [Regime.confined_fits] at hf
    exact accessible_of_within hw hf
  · intro id frame hf hchanged entry hm
    have hregion : region id :=
      Decidable.byContradiction fun hid => hchanged ((hsame.frame id hid).symm.trans hf)
    exact accessible_of_within (hs.after_left.1.captured id frame hf entry hm)
      (hleft.captured id frame hf hregion entry hm)
  · intro other hagrees
    have hgraft : Heap.graft region other.heap machine.heap = other.heap := by
      refine Heap.graft_eq hagrees.size ?_
      rintro id (hid | hid)
      · exact hagrees.frame id hid
      · have hother : other.heap.size ≤ id := hagrees.size ▸ hid
        rw [Heap.frame?, Heap.frame?, Array.getElem?_eq_none hid, Array.getElem?_eq_none hother]
    have hchange : (Regime.confined region other.heap).change machine = other := by
      obtain ⟨heap, blocks, transcript, notices⟩ := other
      obtain ⟨-, -, rfl, rfl, rfl⟩ := hagrees
      exact congrArg (Machine.mk · _ _ _) hgraft
    have hexchange := (hobeys other.heap).eq_exchange fun _ _ hcut => hcut
    rw [hchange] at hexchange
    rw [hexchange, verdict_exchange, left_exchange]
    refine ⟨rfl, Heap.size_graft other.heap, ?_, rfl, rfl, rfl⟩
    intro id hid
    exact Heap.frame?_graft_of_region other.heap (hid.imp_right And.left)

end Eval

/-- Evaluating a tree in a frame is isolated from all frames that cannot be reached from there.
The call of a block is isolated from those that can be reached neither from where the block was
evaluated nor through an argument. -/
theorem evaluation_is_isolated (machine : Machine) (hm : machine.heap.WellFormed) (depth : Nat) :
    (∀ (tree : Option Node) (frame : FrameId), frame < machine.heap.size →
      Eval.Isolated (· = frame) machine (evaluate depth tree (some frame))) ∧
    ∀ (literal : Block) (arguments : List Value) (span : Span),
      literal.frame < machine.heap.size →
      (∀ argument ∈ arguments, argument.Within machine.heap.size) →
      Eval.Isolated (fun id => id = literal.frame ∨
          ∃ captured, Value.block captured ∈ arguments ∧ id = captured.frame)
        machine (Message.call (evalUpTo depth) literal arguments span) := by
  have hstable := Regime.stable_lawful
  refine ⟨?_, ?_⟩
  · intro tree frame hf
    cases tree with
    | none =>
        exact Eval.isolated_of_confined (hstable.pure hm trivial) fun region _ other hclosed _ =>
          (Regime.confined_lawful region other).pure hclosed trivial
    | some node =>
        refine Eval.isolated_of_confined (hstable.evalUpTo_obeys depth node frame machine hm hf) ?_
        intro region _ other hclosed hroots
        exact (Regime.confined_lawful region other).evalUpTo_obeys depth node frame machine hclosed
          (hroots frame rfl)
  · intro literal arguments span hf ha
    refine Eval.isolated_of_confined
      (hstable.call_obeys hm (hstable.evalUpTo_obeys depth) hf ?_ span) ?_
    · rw [Regime.stable_fits]
      exact ha
    · intro region _ other hclosed hroots
      have law := Regime.confined_lawful region other
      refine law.call_obeys hclosed (law.evalUpTo_obeys depth) (hroots _ (.inl rfl)) ?_ span
      rw [Regime.confined_fits]
      intro argument hm
      cases argument with
      | nil | string | number => trivial
      | block captured => exact hroots _ (.inr ⟨captured, hm, rfl⟩)

theorem evaluation_is_isolated_from_caller :
    let caller : Frame := ⟨some 0, [("x", .string "local")]⟩
    let machine := (Machine.initial.pushFrame caller.parent caller.bindings).2
    let tree := (parseProgram "x := 'global'").toOption.bind Parsed.program
    let called := Message.call (evalUpTo 10) ⟨[], [], tree, 0, ⟨0, 13⟩, 0⟩ [] ⟨0, 13⟩ machine
    let evaluated := evaluate 10 tree (some 0) machine
    ((Eval.left called).heap.defines 2 "x" = true ∧
        (Eval.left called).heap.frame? 1 = some caller) ∧
      (Eval.left evaluated).heap.defines 0 "x" = true ∧
        (Eval.left evaluated).heap.frame? 1 = some caller := by
  intro caller machine tree called evaluated
  have hwf : machine.heap.WellFormed := by
    refine Heap.wellFormed_initial.push ?_ ?_
    · rintro above ⟨⟩
      decide
    · intro entry hm
      obtain rfl := List.mem_singleton.mp hm
      trivial
  -- Nothing leads from the root frame to the other one.
  have hroot : ∀ roots : FrameId → Prop, (∀ id, roots id → id = 0) →
      ∀ id, machine.heap.Reaches roots id → id = 0 := by
    intro roots hroots id hr
    induction hr with
    | root hid => exact hroots _ hid
    | parent _ hf hp ih =>
        subst ih
        cases hf
        cases hp
    | captured _ hf hm ih =>
        subst ih
        cases hf
        cases hm
  have hlt : ∀ id < 2, id < machine.heap.size := by decide
  have hcaller : machine.heap.frame? 1 = some caller := rfl
  obtain ⟨hevaluate, hcall⟩ := evaluation_is_isolated machine hwf 10
  have hevaluated : (Eval.left evaluated).heap.frame? 1 = machine.heap.frame? 1 :=
    (hevaluate tree 0 (hlt 0 (by decide))).untouched 1 (hlt 1 (by decide))
      fun hr => nomatch hroot _ (fun _ hid => hid) 1 hr
  have hcalled : (Eval.left called).heap.frame? 1 = machine.heap.frame? 1 :=
    (hcall _ [] ⟨0, 13⟩ (hlt 0 (by decide)) (by simp)).untouched 1 (hlt 1 (by decide))
      fun hr => nomatch hroot _ (by simp) 1 hr
  exact ⟨⟨by decide +kernel, hcalled.trans hcaller⟩, by decide +kernel,
    hevaluated.trans hcaller⟩

end MiniSmalltalk
