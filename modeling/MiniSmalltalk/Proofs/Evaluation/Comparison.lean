import MiniSmalltalk.Proofs.Evaluation.Accord
import MiniSmalltalk.Proofs.Evaluation.Triple

/-! # Comparing evaluations

Of two evaluations on machines the second one starts from what stands for the machine of the first
one. They come to values or halts that stand for each other, on machines that do, unless the second
one is interrupted on the way. If this is so for every way to touch a machine, the evaluations are
in accord. -/

namespace MiniSmalltalk

/-! ### Assignments and frames -/

/-- The machine behind an assignment and the notice it may give rise to. -/
def Machine.store (machine : Machine) (frame : FrameId) (name : String) (span : Span)
    (value : Value) : Machine :=
  let (binding, heap) := machine.heap.set frame name value
  { machine with
    heap := heap
    notices :=
      if binding = .created ∧ heap.isRoot frame = false then
        machine.notices ++ [.implicitDeclaration name span]
      else machine.notices }

theorem Eval.store_apply (frame : FrameId) (name : String) (span : Span) (value : Value)
    (machine : Machine) :
    (Eval.store frame name span value : Eval Unit) machine =
      .ok () (machine.store frame name span value) := by
  let stored := machine.heap.set frame name value
  change (if stored.1 = .created ∧ stored.2.isRoot frame = false then
      Eval.remark (.implicitDeclaration name span)
    else pure () : Eval Unit) { machine with heap := stored.2 } =
    .ok () { machine with
      heap := stored.2
      notices :=
        if stored.1 = .created ∧ stored.2.isRoot frame = false then
          machine.notices ++ [.implicitDeclaration name span]
        else machine.notices }
  by_cases h : stored.1 = .created ∧ stored.2.isRoot frame = false
  · rw [if_pos h, if_pos h]
    rfl
  · rw [if_neg h, if_neg h]
    rfl

theorem Eval.newFrame_apply (parent : Option FrameId) (bindings : Bindings) (machine : Machine) :
    Eval.newFrame parent bindings machine =
      .ok (machine.pushFrame parent bindings).1 (machine.pushFrame parent bindings).2 := rfl

/-! ### Outcomes -/

/-- The machine that an evaluation leaves, whether it stops or not. -/
def Eval.left {α : Type} : EStateM.Result Halt Machine α → Machine
  | .ok _ machine => machine
  | .error _ machine => machine

/-- A halt whose fault lies elsewhere. -/
def Halt.relocate (place : Span → Span) : Halt → Halt
  | .fault found => .fault { found with span := place found.span }
  | .tooDeep => .tooDeep

@[simp] theorem Halt.relocate_id (halt : Halt) : halt.relocate id = halt := by
  cases halt <;> rfl

/-- On what terms evaluations on machines are compared. -/
structure Comparison extends Terms where
  /-- Which machine stands for a machine. -/
  change : Machine → Machine
  /-- Why evaluations may stop. -/
  halts : Halt → Prop
  /-- Where the second evaluation may be interrupted if the first one goes on to a machine. -/
  cut : Machine → Machine → Prop

namespace Comparison

variable (comparison : Comparison) {α β : Type}

/-- What two evaluations may come to that start from a machine and from what stands for it. -/
inductive Outcome (post : Machine → α → α → Prop) (machine : Machine) :
    EStateM.Result Halt Machine α → EStateM.Result Halt Machine α → Prop where
  | value {value value' : α} {behind : Machine} : comparison.After machine behind →
      post behind value value' →
      Outcome post machine (.ok value behind) (.ok value' (comparison.change behind))
  | halt {halt : Halt} {behind : Machine} : comparison.After machine behind →
      comparison.halts halt →
      Outcome post machine (.error halt behind)
        (.error (halt.relocate comparison.place) (comparison.change behind))
  | cutShort {value value' : α} {behind middle : Machine} : comparison.After machine behind →
      post behind value value' → comparison.cut middle behind →
      Outcome post machine (.ok value behind) (.error .tooDeep middle)
  | cutBefore {halt : Halt} {behind middle : Machine} : comparison.After machine behind →
      comparison.halts halt → comparison.cut middle behind →
      Outcome post machine (.error halt behind) (.error .tooDeep middle)

/-- From a machine and from what stands for it, two evaluations come to what stands for each
other. -/
def Matches (post : Machine → α → α → Prop) (machine : Machine) (action action' : Eval α) : Prop :=
  comparison.Outcome post machine (action machine) (action' (comparison.change machine))

/-- An evaluation compared with itself: it stays within a sphere and stops for certain reasons
only. -/
def within (sphere : Sphere) (halts : Halt → Prop) : Comparison where
  toTerms := sphere.terms
  change := id
  halts := halts
  cut _ _ := False

def accord : Accord Eval Eval where
  toTerms := comparison.toTerms
  relates := comparison.Matches

/-- The ways to touch a machine keep what is in play and what stands for it. -/
structure Lawful : Prop extends comparison.toTerms.Lawful where
  later_refl : ∀ machine, comparison.later machine machine
  later_trans : ∀ {first second third}, comparison.later first second →
    comparison.later second third → comparison.later first third
  cut_later : ∀ {middle machine behind}, comparison.cut middle machine →
    comparison.later machine behind → comparison.cut middle behind
  halts : ∀ {cause}, (∀ kind, cause = .unexpectedNode kind → comparison.stray kind) → ∀ span,
    comparison.halts (.fault ⟨cause, span⟩)
  read : ∀ {machine id name}, comparison.holds machine → comparison.frame machine id →
    comparison.reads name →
    Option.Rel (comparison.Fits machine) (machine.heap.get? id name)
      ((comparison.change machine).heap.get? id name)
  store : ∀ {machine id name value value'}, comparison.holds machine →
    comparison.frame machine id → comparison.assigns name → comparison.Fits machine value value' →
    ∀ span,
    (comparison.change machine).store id name (comparison.place span) value' =
        comparison.change (machine.store id name span value) ∧
      comparison.After machine (machine.store id name span value)
  enter : ∀ {machine block block' arguments arguments'}, comparison.holds machine →
    comparison.block machine block block' →
    List.Forall₂ (comparison.Fits machine) arguments arguments' →
    arguments.length = block.arity →
    let entered := machine.pushFrame (some block.frame) (Message.callBindings block arguments)
    (comparison.change machine).pushFrame (some block'.frame)
        (Message.callBindings block' arguments') = (entered.1, comparison.change entered.2) ∧
      comparison.After machine entered.2 ∧ comparison.frame entered.2 entered.1
  count : ∀ {machine}, comparison.holds machine →
    (comparison.change machine).blocks = machine.blocks ∧
      { comparison.change machine with blocks := machine.blocks + 1 } =
        comparison.change { machine with blocks := machine.blocks + 1 } ∧
      comparison.After machine { machine with blocks := machine.blocks + 1 }
  display : ∀ {machine}, comparison.holds machine → ∀ text,
    { comparison.change machine with
        transcript := (comparison.change machine).transcript.append text } =
        comparison.change { machine with transcript := machine.transcript.append text } ∧
      comparison.After machine { machine with transcript := machine.transcript.append text }

variable {comparison} {post : Machine → α → α → Prop} {machine : Machine}
  {result result' : EStateM.Result Halt Machine α}

theorem Outcome.after_left (h : comparison.Outcome post machine result result') :
    comparison.After machine (Eval.left result) := by
  cases h <;> assumption

/-- An evaluation that cannot be interrupted stops only as the other one does. -/
theorem Outcome.ends (h : comparison.Outcome post machine result result') :
    Eval.Ends
      (fun value behind => comparison.After machine behind ∧ ∃ value', post behind value value')
      (fun halt behind => comparison.After machine behind ∧ comparison.halts halt) result := by
  cases h with
  | value ha hp => exact ⟨ha, _, hp⟩
  | halt ha hh => exact ⟨ha, hh⟩
  | cutShort ha hp _ => exact ⟨ha, _, hp⟩
  | cutBefore ha hh _ => exact ⟨ha, hh⟩

/-- An evaluation that is compared with itself stays within a sphere. -/
theorem within_fits_iff {sphere : Sphere} {halts : Halt → Prop} {action : Eval Value} :
    (within sphere halts).Matches (within sphere halts).Fits machine action action ↔
      Eval.Ends
        (fun value behind => (within sphere halts).After machine behind ∧ sphere.Fits behind value)
        (fun halt behind => (within sphere halts).After machine behind ∧ halts halt)
        (action machine) := by
  change (within sphere halts).Outcome _ machine (action machine) (action machine) ↔ _
  cases action machine with
  | ok value behind =>
      constructor
      · intro h
        obtain ⟨hafter, _, hv⟩ := h.ends
        exact ⟨hafter, (Sphere.fits_iff.mp hv).2⟩
      · rintro ⟨hafter, hv⟩
        exact .value hafter (Sphere.fits_iff.mpr ⟨rfl, hv⟩)
  | error halt behind =>
      constructor
      · exact Outcome.ends
      · rintro ⟨hafter, hh⟩
        have hout : (within sphere halts).Outcome (within sphere halts).Fits machine
            (.error halt behind) (.error (halt.relocate id) behind) := .halt hafter hh
        rwa [Halt.relocate_id] at hout

namespace Lawful

variable (law : comparison.Lawful)

include law

theorem outcome_after {first : Machine} (ha : comparison.After first machine)
    (h : comparison.Outcome post machine result result') :
    comparison.Outcome post first result result' := by
  have hafter : ∀ {behind}, comparison.After machine behind → comparison.After first behind :=
    fun hb => ⟨hb.1, law.later_trans ha.2 hb.2⟩
  cases h with
  | value hb hp => exact .value (hafter hb) hp
  | halt hb hh => exact .halt (hafter hb) hh
  | cutShort hb hp hc => exact .cutShort (hafter hb) hp hc
  | cutBefore hb hh hc => exact .cutBefore (hafter hb) hh hc

/-- Where the second evaluation has been interrupted it does not go on. -/
theorem outcome_cut (h : comparison.Outcome post machine result result') {middle : Machine}
    (hc : comparison.cut middle machine) :
    comparison.Outcome post machine result (.error .tooDeep middle) := by
  have hcut := law.cut_later hc h.after_left.2
  cases h with
  | value hb hp => exact .cutShort hb hp hcut
  | halt hb hh => exact .cutBefore hb hh hcut
  | cutShort hb hp _ => exact .cutShort hb hp hcut
  | cutBefore hb hh _ => exact .cutBefore hb hh hcut

theorem pure (hm : comparison.holds machine) {value value' : α} (h : post machine value value') :
    comparison.Matches post machine (Pure.pure value) (Pure.pure value') :=
  .value ⟨hm, law.later_refl machine⟩ h

theorem halt (hm : comparison.holds machine) {halt : Halt} (h : comparison.halts halt) :
    comparison.Matches post machine (Eval.halt halt)
      (Eval.halt (halt.relocate comparison.place)) :=
  .halt ⟨hm, law.later_refl machine⟩ h

theorem bind {final : Machine → β → β → Prop} {action action' : Eval α} {next next' : α → Eval β}
    (h : comparison.Matches post machine action action')
    (hn : ∀ value value' behind, comparison.After machine behind → post behind value value' →
      comparison.Matches final behind (next value) (next' value')) :
    comparison.Matches final machine (action >>= next) (action' >>= next') := by
  unfold Matches at h ⊢
  simp only [Bind.bind, EStateM.bind]
  generalize action machine = result, action' (comparison.change machine) = result' at h
  cases h with
  | value ha hp => exact law.outcome_after ha (hn _ _ _ ha hp)
  | halt ha hh => exact .halt ha hh
  | cutShort ha hp hc => exact law.outcome_after ha (law.outcome_cut (hn _ _ _ ha hp) hc)
  | cutBefore ha hh hc => exact .cutBefore ha hh hc

omit law in
theorem of_ok {action action' : Eval α} {value value' : α} {behind : Machine}
    (h : action machine = .ok value behind)
    (h' : action' (comparison.change machine) = .ok value' (comparison.change behind))
    (ha : comparison.After machine behind) (hp : post behind value value') :
    comparison.Matches post machine action action' := by
  rw [Matches, h, h']
  exact .value ha hp

omit law in
theorem newFrame {parent parent' : Option FrameId} {bindings bindings' : Bindings}
    (hmade : (comparison.change machine).pushFrame parent' bindings' =
      ((machine.pushFrame parent bindings).1,
        comparison.change (machine.pushFrame parent bindings).2))
    (ha : comparison.After machine (machine.pushFrame parent bindings).2)
    (hid : comparison.frame (machine.pushFrame parent bindings).2
      (machine.pushFrame parent bindings).1) :
    comparison.Matches (fun behind id id' => id' = id ∧ comparison.frame behind id) machine
      (Eval.newFrame parent bindings) (Eval.newFrame parent' bindings') := by
  have hother := Eval.newFrame_apply parent' bindings' (comparison.change machine)
  rw [hmade] at hother
  exact of_ok (Eval.newFrame_apply parent bindings machine) hother ha ⟨rfl, hid⟩

/-- A root frame is made like any other frame. -/
theorem frameOrNew (hm : comparison.holds machine) {frame : Option FrameId}
    (hf : ∀ id ∈ frame, comparison.frame machine id)
    (hmade : (comparison.change machine).pushFrame none [] =
      (machine.heap.size, comparison.change (machine.pushFrame none []).2))
    (ha : comparison.After machine (machine.pushFrame none []).2)
    (hid : comparison.frame (machine.pushFrame none []).2 machine.heap.size) :
    comparison.Matches (fun behind id id' => id' = id ∧ comparison.frame behind id) machine
      (Eval.frameOrNew frame) (Eval.frameOrNew frame) := by
  cases frame with
  | some id => exact law.pure hm ⟨rfl, hf id rfl⟩
  | none => exact newFrame hmade ha hid

/-- Evaluations that match in the single ways to touch a machine are in accord. -/
theorem accord : comparison.accord.Lawful where
  toLawful := law.toLawful
  pure hm h := law.pure hm h
  bind := law.bind
  fail hm hc span := law.halt hm (law.halts hc span)
  read hm hf hname := .value ⟨hm, law.later_refl _⟩ (law.read hm hf hname)
  store := by
    intro machine id name value value' hm hf hname hv span
    obtain ⟨hchange, hafter⟩ := law.store hm hf hname hv span
    have hother :=
      Eval.store_apply id name (comparison.place span) value' (comparison.change machine)
    rw [hchange] at hother
    exact of_ok (Eval.store_apply id name span value machine) hother hafter trivial
  newBlock := by
    intro machine id node node' hm hf hblock
    obtain ⟨hblocks, hchange, hafter⟩ := law.count hm
    have hmade := hblock _ machine.blocks (law.frame_after hafter hf)
    refine of_ok rfl ?_ hafter (.block hmade)
    rw [← hchange, ← hblocks]
    rfl
  enter := by
    intro machine block block' arguments arguments' hm hb ha hcount
    obtain ⟨hchange, hafter, hframe⟩ := law.enter hm hb ha hcount
    exact newFrame hchange hafter hframe
  display := by
    intro machine hm text
    obtain ⟨hchange, hafter⟩ := law.display hm text
    exact of_ok rfl (congrArg (EStateM.Result.ok ()) hchange) hafter trivial

/-- All evaluations match if the single ways to touch a machine do. -/
theorem evalUpTo (h : comparison.halts .tooDeep) (depth : Nat) :
    comparison.accord.Evaluates (evalUpTo depth) (evalUpTo depth) :=
  law.accord.upTo_evaluates (fun _ _ _ _ _ hm _ => law.halt hm h) depth

theorem evaluate (h : comparison.halts .tooDeep) (depth : Nat) {tree tree' : Option Node}
    (ht : Option.Rel (comparison.tree .evaluated) tree tree') {frame : Option FrameId}
    (hf : comparison.Matches (fun behind id id' => id' = id ∧ comparison.frame behind id) machine
      (Eval.frameOrNew frame) (Eval.frameOrNew frame)) :
    comparison.Matches comparison.Fits machine (evaluate depth tree frame)
      (evaluate depth tree' frame) :=
  law.accord.evaluateBy (law.evalUpTo h depth) ht hf

end Lawful

end Comparison

end MiniSmalltalk
