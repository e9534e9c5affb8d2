import MiniSmalltalk.Proofs.Evaluation.Terms

/-! # Evaluations in accord

The evaluator touches its stage in a few ways only: it gives a value, goes on with one, fails,
reads a variable, assigns to one, makes a block, enters the frame of one and shows a text. An
accord says when a computation on one stage corresponds to a computation on another. If all those
ways correspond, so do all evaluations. An invariant of evaluations on one stage is an accord of
the stage with itself. -/

namespace MiniSmalltalk

/-- When computations on two stages correspond, and on what terms. -/
structure Accord (m n : Type → Type) extends Terms where
  /-- From a machine, one computation corresponds to another, and so do what they give. -/
  relates {α : Type} : (Machine → α → α → Prop) → Machine → m α → n α → Prop

namespace Accord

abbrev Anything {α : Type} (_ : Machine) (_ _ : α) : Prop := True

variable {m n : Type → Type} (accord : Accord m n)

/-- One evaluator corresponds to another wherever frames and machines are in play. -/
def Evaluates (eval : EvaluatorOn m) (eval' : EvaluatorOn n) : Prop :=
  ∀ node node' id machine, accord.tree .evaluated node node' → accord.holds machine →
    accord.frame machine id → accord.relates accord.Fits machine (eval node id) (eval' node' id)

/-- Accord is kept in every way to touch a stage. -/
structure Lawful [Monad m] [Stage m] [Monad n] [Stage n] : Prop extends accord.toTerms.Lawful where
  pure : ∀ {α : Type} {post : Machine → α → α → Prop} {machine value value'},
    accord.holds machine → post machine value value' →
    accord.relates post machine (Pure.pure value) (Pure.pure value')
  bind : ∀ {α β : Type} {post : Machine → α → α → Prop} {final : Machine → β → β → Prop}
    {machine action action' next next'}, accord.relates post machine action action' →
    (∀ value value' behind, accord.After machine behind → post behind value value' →
      accord.relates final behind (next value) (next' value')) →
    accord.relates final machine (action >>= next) (action' >>= next')
  fail : ∀ {α : Type} {post : Machine → α → α → Prop} {machine cause}, accord.holds machine →
    (∀ kind, cause = .unexpectedNode kind → accord.stray kind) → ∀ span,
    accord.relates post machine (Eval.fail cause span) (Eval.fail cause (accord.place span))
  read : ∀ {machine id name}, accord.holds machine → accord.frame machine id → accord.reads name →
    accord.relates (fun behind => Option.Rel (accord.Fits behind)) machine (Eval.lookup id name)
      (Eval.lookup id name)
  store : ∀ {machine id name value value'}, accord.holds machine → accord.frame machine id →
    accord.assigns name → accord.Fits machine value value' → ∀ span,
    accord.relates Anything machine (Eval.store id name span value)
      (Eval.store id name (accord.place span) value')
  newBlock : ∀ {machine id node node'}, accord.holds machine → accord.frame machine id →
    (∀ machine identity, accord.frame machine id →
      accord.block machine (.ofNode node id identity) (.ofNode node' id identity)) →
    accord.relates accord.Fits machine (Eval.newBlock node id) (Eval.newBlock node' id)
  enter : ∀ {machine block block' arguments arguments'}, accord.holds machine →
    accord.block machine block block' →
    List.Forall₂ (accord.Fits machine) arguments arguments' → arguments.length = block.arity →
    accord.relates (fun behind id id' => id' = id ∧ accord.frame behind id) machine
      (Stage.newFrame (some block) (Message.callBindings block arguments))
      (Stage.newFrame (some block') (Message.callBindings block' arguments'))
  display : ∀ {machine}, accord.holds machine → ∀ text,
    accord.relates Anything machine (Eval.display text) (Eval.display text)

/-! ### Messages -/

namespace Lawful

variable {m n : Type → Type} [Monad m] [Stage m] [Monad n] [Stage n] {accord : Accord m n}
  (law : accord.Lawful) {α : Type} {post : Machine → α → α → Prop} {machine : Machine}

include law

omit law [Monad m] [Stage m] [Monad n] [Stage n] in
theorem ite {test : Prop} [Decidable test] {yes no : m α} {yes' no' : n α}
    (hy : test → accord.relates post machine yes yes')
    (hn : ¬ test → accord.relates post machine no no') :
    accord.relates post machine (if test then yes else no) (if test then yes' else no') := by
  by_cases h : test
  · rw [if_pos h, if_pos h]
    exact hy h
  · rw [if_neg h, if_neg h]
    exact hn h

variable (hm : accord.holds machine)

include hm

/-- A failure that has nothing to do with the shape of a tree. -/
theorem fault {cause : RuntimeCause} (h : ∀ kind, cause ≠ .unexpectedNode kind) (span : Span) :
    accord.relates post machine (Eval.fail cause span) (Eval.fail cause (accord.place span)) :=
  law.fail hm (fun kind hc => absurd hc (h kind)) span

/-- A failure because of a node that is not expected, or because none is found. -/
theorem astray {kind : Option Kind} (h : accord.stray kind) (span : Span) :
    accord.relates post machine (Eval.fail (.unexpectedNode kind) span)
      (Eval.fail (.unexpectedNode kind) (accord.place span)) :=
  law.fail hm (fun _ hc => RuntimeCause.unexpectedNode.inj hc ▸ h) span

section

open Message

variable {message message' : Message} (hs : accord.Sent machine message message')

include hs

theorem notUnderstood {receiver receiver' : Value} (hk : receiver'.kind = receiver.kind) :
    accord.relates post machine (message.notUnderstood receiver)
      (message'.notUnderstood receiver') := by
  rw [Message.notUnderstood, Message.notUnderstood, hk, hs.selector, hs.operation, hs.span]
  exact law.fault hm (by simp) message.span

theorem expectCount (expected : Nat) :
    accord.relates Anything machine (message.expectCount expected)
      (message'.expectCount expected) := by
  rw [Message.expectCount, Message.expectCount, ← hs.arguments.length_eq, hs.span]
  exact ite (fun _ => law.pure hm trivial) fun _ => law.fault hm (by simp) message.span

theorem wrongType (expected : ValueKind) {got got' : Value} (hg : accord.Fits machine got got') :
    accord.relates post machine (message.wrongType expected got)
      (message'.wrongType expected got') := by
  rw [Message.wrongType, Message.wrongType, hg.kind, hs.selector, hs.span]
  exact law.fault hm (by simp) message.span

/-- An argument that is missing or not the only one. -/
theorem wrongCount :
    accord.relates post machine
      (Eval.fail (.argumentCount 1 message.arguments.length) message.span)
      (Eval.fail (.argumentCount 1 message'.arguments.length) message'.span) := by
  rw [← hs.arguments.length_eq, hs.span]
  exact law.fault hm (by simp) message.span

theorem numberArgument :
    accord.relates (fun _ => Eq) machine message.numberArgument message'.numberArgument := by
  obtain ⟨selector, operation, arguments, span⟩ := message
  obtain ⟨selector', operation', arguments', span'⟩ := message'
  cases hs.arguments with
  | nil => exact law.wrongCount hm hs
  | cons hfirst hrest =>
      cases hrest with
      | cons =>
          cases hfirst <;> exact law.wrongCount hm hs
      | nil =>
          cases hfirst with
          | number value => exact law.pure hm rfl
          | nil => exact law.wrongType hm hs .number .nil
          | string text => exact law.wrongType hm hs .number (.string text)
          | block hb => exact law.wrongType hm hs .number (.block hb)

theorem stringArgument :
    accord.relates (fun _ => Eq) machine message.stringArgument message'.stringArgument := by
  obtain ⟨selector, operation, arguments, span⟩ := message
  obtain ⟨selector', operation', arguments', span'⟩ := message'
  cases hs.arguments with
  | nil => exact law.wrongCount hm hs
  | cons hfirst hrest =>
      cases hrest with
      | cons =>
          cases hfirst <;> exact law.wrongCount hm hs
      | nil =>
          cases hfirst with
          | string text => exact law.pure hm rfl
          | nil => exact law.wrongType hm hs .string .nil
          | number value => exact law.wrongType hm hs .string (.number value)
          | block hb => exact law.wrongType hm hs .string (.block hb)

/-- A message without arguments that is answered without looking at the machine. -/
theorem answer {value : Value} (hv : ∀ machine, accord.Fits machine value value) :
    accord.relates accord.Fits machine (do message.expectCount 0; return value)
      (do message'.expectCount 0; return value) :=
  law.bind (law.expectCount hm hs 0) fun _ _ _ ha _ => law.pure ha.1 (hv _)

/-- A message that shows a text and gives back its receiver. -/
theorem displayed (text : String) {value : Value}
    (hv : ∀ machine, accord.Fits machine value value) :
    accord.relates accord.Fits machine
      (do message.expectCount 0; Eval.display text; return value)
      (do message'.expectCount 0; Eval.display text; return value) := by
  apply law.bind (law.expectCount hm hs 0)
  intro _ _ behind ha _
  apply law.bind (law.display ha.1 text)
  intro _ _ last hl _
  exact law.pure hl.1 (hv last)

theorem performString (text : String) :
    accord.relates accord.Fits machine (message.performString text)
      (message'.performString text) := by
  unfold Message.performString
  rw [hs.operation]
  split
  · apply law.bind (law.stringArgument hm hs)
    rintro other _ behind ha rfl
    exact law.pure ha.1 (.string _)
  · exact law.displayed hm hs text fun _ => .string text
  · exact law.displayed hm hs text fun _ => .string text
  · exact law.answer hm hs fun _ => .string _
  · exact law.answer hm hs fun _ => .number _
  · exact law.notUnderstood hm hs rfl

theorem performNumber (value : Float) :
    accord.relates accord.Fits machine (message.performNumber value)
      (message'.performNumber value) := by
  have hcombine : ∀ combine : Float → Float, accord.relates accord.Fits machine
      (do let other ← message.numberArgument; return .number (combine other))
      (do let other ← message'.numberArgument; return .number (combine other)) := by
    intro combine
    apply law.bind (law.numberArgument hm hs)
    rintro other _ behind ha rfl
    exact law.pure ha.1 (.number _)
  unfold Message.performNumber
  rw [hs.operation]
  split
  · exact hcombine (value + ·)
  · exact hcombine (value - ·)
  · exact hcombine (value * ·)
  · exact hcombine (value / ·)
  · exact law.answer hm hs fun _ => .number _
  · exact law.displayed hm hs _ fun _ => .number _
  · exact law.displayed hm hs _ fun _ => .number _
  · exact law.answer hm hs fun _ => .string _
  · exact law.notUnderstood hm hs rfl

end

variable {eval : EvaluatorOn m} {eval' : EvaluatorOn n} (he : accord.Evaluates eval eval')

include he

theorem call {block block' : Block} (hb : accord.block machine block block')
    {arguments arguments' : List Value}
    (ha : List.Forall₂ (accord.Fits machine) arguments arguments') (span : Span) :
    accord.relates accord.Fits machine (Message.call eval block arguments span)
      (Message.call eval' block' arguments' (accord.place span)) := by
  obtain ⟨harity, hbody⟩ := law.body hb
  unfold Message.call
  rw [harity, ← ha.length_eq]
  refine ite (fun hcount => ?_) fun _ => law.fault hm (by simp) span
  apply law.bind (law.enter hm hb ha hcount)
  rintro id _ behind hafter ⟨rfl, hid⟩
  generalize block.body = body, block'.body = body' at hbody
  cases hbody with
  | none => exact law.pure hafter.1 .nil
  | some hbody => exact he _ _ _ behind hbody hafter.1 hid

theorem performWith {receiver receiver' : Value} (hr : accord.Fits machine receiver receiver')
    {message message' : Message} (hs : accord.Sent machine message message') :
    accord.relates accord.Fits machine (message.performWith eval receiver)
      (message'.performWith eval' receiver') := by
  cases hr with
  | nil => exact law.notUnderstood hm hs rfl
  | string text => exact law.performString hm hs text
  | number value => exact law.performNumber hm hs value
  | @block block block' hb =>
      have hcall := law.call hm he hb hs.arguments message.span
      unfold Message.performWith Message.performBlock
      dsimp only
      rw [hs.operation, hs.span, (law.body hb).1]
      split
      · exact hcall
      · exact hcall
      · exact hcall
      · exact hcall
      · exact hcall
      · exact law.answer hm hs fun _ => .number _
      · exact law.notUnderstood hm hs rfl

end Lawful

/-! ### Trees -/

namespace Lawful

open Evaluator

variable {m n : Type → Type} [Monad m] [Stage m] [Monad n] [Stage n] {accord : Accord m n}
  (law : accord.Lawful) {eval : EvaluatorOn m} {eval' : EvaluatorOn n}
  (he : accord.Evaluates eval eval') {machine : Machine} (hm : accord.holds machine)
  {frame : FrameId} (hf : accord.frame machine frame)

include law hm

theorem required {stands : Node → Node → Prop} {slot slot' : Option Node}
    (hs : accord.Slot stands slot slot') (span : Span) :
    accord.relates (fun _ => stands) machine (Evaluator.required slot span)
      (Evaluator.required slot' (accord.place span)) := by
  cases hs with
  | empty h => exact law.astray hm h span
  | held h => exact law.pure hm h

theorem requiredRun {slot slot' : Option Node}
    (hs : accord.Slot (accord.tree .run) slot slot') (span : Span) :
    accord.relates
      (fun _ run run' => run'.span = accord.place run.span ∧
        accord.Slots .message run.children run'.children) machine
      (Evaluator.requiredRun slot span) (Evaluator.requiredRun slot' (accord.place span)) := by
  cases hs with
  | empty h => exact law.astray hm h span
  | @held run run' h =>
      obtain ⟨hhead, hparts⟩ := law.opens h
      simp only [Evaluator.requiredRun, hhead.kind, hhead.span, beq_iff_eq]
      refine ite (fun hk => law.pure hm ⟨hhead.span, ?_⟩) fun hk => law.astray hm ?_ run.span
      · simpa only [Terms.Parts, if_pos hk] using hparts
      · simpa only [Terms.Parts, if_neg hk] using hparts

include he hf

theorem statements {slots slots' : List (Option Node)} (hs : accord.Slots .evaluated slots slots')
    {last last' : Value} (hl : accord.Fits machine last last') :
    accord.relates accord.Fits machine (Evaluator.statements eval frame last slots)
      (Evaluator.statements eval' frame last' slots') := by
  induction hs generalizing machine last last' with
  | nil => exact law.pure hm hl
  | cons hslot hslots ih =>
      cases hslot with
      | empty => exact ih hm hf .nil
      | held hnode =>
          apply law.bind (he _ _ frame machine hnode hm hf)
          intro value value' behind ha hv
          exact ih ha.1 (law.frame_after ha hf) hv

theorem arguments {slots slots' : List (Option Node)} (hs : accord.Slots .evaluated slots slots')
    (span : Span) :
    accord.relates (fun behind => List.Forall₂ (accord.Fits behind)) machine
      (Evaluator.arguments eval frame span slots)
      (Evaluator.arguments eval' frame (accord.place span) slots') := by
  induction hs generalizing machine with
  | nil => exact law.pure hm .nil
  | cons hslot hslots ih =>
      apply law.bind (law.required hm hslot span)
      intro node node' first ha hnode
      have hfirst := law.frame_after ha hf
      apply law.bind (he node node' frame first hnode ha.1 hfirst)
      intro value value' second hs hv
      apply law.bind (ih hs.1 (law.frame_after hs hfirst))
      intro values values' third ht hvs
      exact law.pure ht.1 (.cons (law.fits_after ht hv) hvs)

theorem send {receiver receiver' : Value} (hr : accord.Fits machine receiver receiver')
    {node node' : Node} (hn : accord.tree .message node node') :
    accord.relates accord.Fits machine (Evaluator.send eval frame receiver node)
      (Evaluator.send eval' frame receiver' node') := by
  obtain ⟨hhead, hparts⟩ := law.opens hn
  unfold Evaluator.send
  simp only [hhead.isMessage, hhead.textOrEmpty, hhead.kind, hhead.span, Value.respondsTo, hr.kind]
  refine ite (fun hmessage => ite (fun _ => ?_) fun _ => law.fault hm (by simp) node.span)
    fun hmessage => law.astray hm ?_ node.span
  · simp only [Terms.Parts, if_pos hmessage] at hparts
    apply law.bind (law.arguments he hm hf hparts node.span)
    intro values values' behind ha hvs
    exact law.performWith ha.1 he (law.fits_after ha hr) ⟨rfl, rfl, hvs, rfl⟩
  · simpa only [Terms.Parts, if_neg hmessage] using hparts

theorem sendRun {slots slots' : List (Option Node)} (hs : accord.Slots .message slots slots')
    (span : Span) {receiver receiver' previous previous' : Value}
    (hr : accord.Fits machine receiver receiver')
    (hp : accord.Fits machine previous previous') :
    accord.relates accord.BothFit machine
      (Evaluator.sendRun eval frame span receiver previous slots)
      (Evaluator.sendRun eval' frame (accord.place span) receiver' previous' slots') := by
  induction hs generalizing machine receiver receiver' previous previous' with
  | nil => exact law.pure hm ⟨hr, hp⟩
  | cons hslot hslots ih =>
      apply law.bind (law.required hm hslot span)
      intro node node' first ha hnode
      have hfirst := law.frame_after ha hf
      have hreceiver := law.fits_after ha hr
      apply law.bind (law.send he ha.1 hfirst hreceiver hnode)
      intro value value' second hs hv
      exact ih hs.1 (law.frame_after hs hfirst) hv (law.fits_after hs hreceiver)

theorem cascades {slots slots' : List (Option Node)} (hs : accord.Slots .run slots slots')
    (span : Span) {receiver receiver' last last' : Value}
    (hr : accord.Fits machine receiver receiver') (hl : accord.Fits machine last last') :
    accord.relates accord.Fits machine (Evaluator.cascades eval frame span receiver last slots)
      (Evaluator.cascades eval' frame (accord.place span) receiver' last' slots') := by
  induction hs generalizing machine last last' with
  | nil => exact law.pure hm hl
  | cons hslot hslots ih =>
      apply law.bind (law.requiredRun hm hslot span)
      rintro run run' first ha ⟨hspan, hmessages⟩
      rw [hspan]
      have hfirst := law.frame_after ha hf
      have hreceiver := law.fits_after ha hr
      apply law.bind (law.sendRun he ha.1 hfirst hmessages run.span hreceiver hreceiver)
      intro pair pair' second hs hpair
      exact ih hs.1 (law.frame_after hs hfirst) (law.fits_after hs hreceiver) hpair.1

theorem runs {slots slots' : List (Option Node)} (hs : accord.Slots .run slots slots')
    (span : Span) {receiver receiver' : Value} (hr : accord.Fits machine receiver receiver') :
    accord.relates accord.Fits machine (Evaluator.runs eval frame span receiver slots)
      (Evaluator.runs eval' frame (accord.place span) receiver' slots') := by
  cases hs with
  | nil => exact law.pure hm hr
  | cons hslot hslots =>
      apply law.bind (law.requiredRun hm hslot span)
      rintro run run' first ha ⟨hspan, hmessages⟩
      rw [hspan]
      have hfirst := law.frame_after ha hf
      have hreceiver := law.fits_after ha hr
      apply law.bind (law.sendRun he ha.1 hfirst hmessages run.span hreceiver hreceiver)
      intro pair pair' second hs hpair
      exact law.cascades he hs.1 (law.frame_after hs hfirst) hslots span hpair.2 hpair.1

/-- The first slot of an expression holds its receiver, the others hold the runs sent to it. -/
theorem expression {node node' : Node} (hspan : node'.span = accord.place node.span)
    (hp : accord.Slot (accord.tree .evaluated) (node.child? 0) (node'.child? 0))
    (hr : accord.Slots .run (node.children.drop 1) (node'.children.drop 1)) :
    accord.relates accord.Fits machine (Evaluator.expression eval node frame)
      (Evaluator.expression eval' node' frame) := by
  unfold Evaluator.expression
  rw [hspan]
  apply law.bind (law.required hm hp node.span)
  intro primary primary' first ha hprimary
  have hhead := (law.opens hprimary).1
  have hfirst := law.frame_after ha hf
  apply law.bind (he primary primary' frame first hprimary ha.1 hfirst)
  intro receiver receiver' second hs hreceiver
  rw [hreceiver.isNil, hhead.describe, hhead.span]
  refine ite (fun _ => law.fault hs.1 (by simp) primary.span) fun _ => ?_
  exact law.runs he hs.1 (law.frame_after hs hfirst) hr node.span hreceiver

/-- The first slot of an assignment holds its target, the second one its source. -/
theorem assignment {node node' : Node} (hspan : node'.span = accord.place node.span)
    (ht : accord.Slot accord.Target (node.child? 0) (node'.child? 0))
    (hs : accord.Slot (accord.tree .evaluated) (node.child? 1) (node'.child? 1)) :
    accord.relates accord.Fits machine (Evaluator.assignment eval node frame)
      (Evaluator.assignment eval' node' frame) := by
  unfold Evaluator.assignment
  rw [hspan]
  apply law.bind (law.required hm ht node.span)
  rintro target target' first ha ⟨hhead, hname⟩
  apply law.bind (law.required ha.1 hs node.span)
  intro source source' second hb hsource
  have hsecond := law.frame_after hb (law.frame_after ha hf)
  apply law.bind (he source source' frame second hsource hb.1 hsecond)
  intro value value' third hc hv
  rw [hhead.textOrEmpty, hhead.span]
  apply law.bind (law.store hc.1 (law.frame_after hc hsecond) hname hv target.span)
  intro _ _ last hl _
  exact law.pure hl.1 (law.fits_after hl hv)

omit he in
theorem reference {node node' : Node} (hhead : accord.Head node node')
    (hname : accord.reads node.textOrEmpty) :
    accord.relates accord.Fits machine (Evaluator.reference node frame)
      (Evaluator.reference node' frame) := by
  unfold Evaluator.reference
  rw [hhead.textOrEmpty, hhead.span]
  apply law.bind (law.read hm hf hname)
  intro found found' behind ha hfound
  cases hfound with
  | none => exact law.fault ha.1 (by simp) node.span
  | some hv => exact law.pure ha.1 hv

omit he hf in
theorem integer {node node' : Node} (hhead : accord.Head node node') :
    accord.relates accord.Fits machine (Evaluator.integer node) (Evaluator.integer node') := by
  unfold Evaluator.integer
  rw [hhead.textOrEmpty, hhead.span]
  split
  · exact law.pure hm (.number _)
  · exact law.fault hm (by simp) node.span

/-- Nodes with parts that correspond are evaluated alike if what is inside is. -/
theorem step {node node' : Node} (h : accord.Opens .evaluated node node') :
    accord.relates accord.Fits machine (Evaluator.step eval node frame)
      (Evaluator.step eval' node' frame) := by
  obtain ⟨hhead, hparts⟩ := h
  simp only [Terms.Parts] at hparts
  simp only [Evaluator.step, hhead.kind, hhead.span, hhead.textOrEmpty]
  cases hk : node.kind with
  | statements =>
      simp only [hk] at hparts ⊢
      exact law.statements he hm hf hparts .nil
  | expression =>
      simp only [hk] at hparts ⊢
      exact law.expression he hm hf hhead.span hparts.1 hparts.2
  | assignment =>
      simp only [hk] at hparts ⊢
      exact law.assignment he hm hf hhead.span hparts.1 hparts.2
  | answer =>
      simp only [hk] at hparts ⊢
      apply law.bind (law.required hm hparts node.span)
      intro inner inner' behind ha hinner
      exact he inner inner' frame behind hinner ha.1 (law.frame_after ha hf)
  | identifier =>
      simp only [hk] at hparts ⊢
      exact law.reference hm hf hhead hparts
  | string => exact law.pure hm (.string _)
  | integer => exact law.integer hm hhead
  | block =>
      simp only [hk] at hparts ⊢
      exact law.newBlock hm hf fun machine identity => hparts machine frame identity
  | _ =>
      simp only [hk] at hparts ⊢
      exact law.astray hm hparts node.span

omit hm hf in
/-- Evaluators that correspond give rise to evaluators that correspond. -/
theorem step_evaluates : accord.Evaluates (Evaluator.step eval) (Evaluator.step eval') :=
  fun _ _ _ _ hn hm hf => law.step he hm hf (law.opens hn)

omit he hm hf in
/-- Whatever the ways to touch a stage keep, all evaluations keep. -/
theorem upTo_evaluates (h : accord.Evaluates (upTo 0) (upTo 0)) (depth : Nat) :
    accord.Evaluates (upTo depth) (upTo depth) := by
  induction depth with
  | zero => exact h
  | succ depth ih => exact law.step_evaluates ih

omit hm hf in
theorem evaluateBy {tree tree' : Option Node}
    (ht : Option.Rel (accord.tree .evaluated) tree tree') {frame : Option FrameId}
    (hf : accord.relates (fun behind id id' => id' = id ∧ accord.frame behind id) machine
      (Eval.frameOrNew frame) (Eval.frameOrNew frame)) :
    accord.relates accord.Fits machine (MiniSmalltalk.evaluateBy eval tree frame)
      (MiniSmalltalk.evaluateBy eval' tree' frame) := by
  apply law.bind hf
  rintro id _ behind ha ⟨rfl, hid⟩
  cases ht with
  | none => exact law.pure ha.1 .nil
  | some hnode => exact he _ _ _ behind hnode ha.1 hid

end Lawful

end Accord

end MiniSmalltalk
