import MiniSmalltalk.Proofs.Evaluation.Cascade
import MiniSmalltalk.Proofs.Evaluation.Sequence
import MiniSmalltalk.Proofs.Grammar.Parentheses

/-! # Evaluating parentheses

What an expression comes to is what its front comes to, and what the messages behind make of it.
With parentheses around the front, its value is tested once more: it must not be nil. Nothing else
is different. -/

namespace MiniSmalltalk

open Eval

namespace Evaluator

variable (eval : Evaluator) (frame : FrameId)

/-! ### Runs -/

theorem cascades_span {runs : List Node} (h : ∀ run ∈ runs, run.kind = .messages)
    (span other : Span) (receiver last : Value) :
    cascades eval frame span receiver last (runs.map some) =
      cascades eval frame other receiver last (runs.map some) := by
  induction runs generalizing last with
  | nil => rfl
  | cons run runs ih =>
      obtain ⟨hrun, hothers⟩ := List.forall_mem_cons.mp h
      simp only [cascades_cons eval frame hrun, ih hothers]

theorem runs_span {runs : List Node} (h : ∀ run ∈ runs, run.kind = .messages) (span other : Span)
    (receiver : Value) :
    Evaluator.runs eval frame span receiver (runs.map some) =
      Evaluator.runs eval frame other receiver (runs.map some) := by
  cases runs with
  | nil => rfl
  | cons run runs =>
      obtain ⟨hrun, hothers⟩ := List.forall_mem_cons.mp h
      simp only [List.map_cons, Evaluator.runs, requiredRun_messages hrun, pure_bind]
      exact congrArg _ (funext fun pair =>
        cascades_span eval frame hothers span other pair.2 pair.1)

/-- What is sent to a receiver: the messages of a first run, if there are any, and further runs. -/
def sendChain (receiver : Value) (messages runs : List Node) : Eval Value :=
  Evaluator.runs eval frame .origin receiver ((Node.runOf messages ++ runs).map some)

theorem sendChain_cons {message : Node} {messages runs : List Node}
    (h : ∀ run ∈ runs, run.kind = .messages) (span : Span) (receiver : Value) :
    sendChain eval frame receiver (message :: messages) runs =
      sendRun eval frame span receiver receiver ((message :: messages).map some) >>= fun pair =>
        cascades eval frame span pair.2 pair.1 (runs.map some) := by
  have hkind : (Node.compose .messages (message :: messages)).kind = .messages := rfl
  simp only [sendChain, Node.runOf, List.singleton_append, List.map_cons, Evaluator.runs,
    requiredRun_messages hkind, pure_bind]
  change sendRun eval frame _ receiver receiver ((message :: messages).map some) >>= _ = _
  rw [sendRun_span eval frame _ span receiver receiver (message :: messages)]
  exact congrArg _ (funext fun pair => cascades_span eval frame h _ span pair.2 pair.1)

/-- Nil understands no message. -/
theorem sendChain_of_nil {message : Node} (hm : isMessage message = true)
    {messages runs : List Node} (h : ∀ run ∈ runs, run.kind = .messages) :
    sendChain eval frame .nil (message :: messages) runs =
      Eval.fail (.noSuchOperation message.textOrEmpty (operationName message.textOrEmpty) .nil)
        message.span := by
  have hsend : send eval frame .nil message =
      Eval.fail (.noSuchOperation message.textOrEmpty (operationName message.textOrEmpty) .nil)
        message.span := by
    simp [send, hm, Value.respondsTo, Value.kind, ValueKind.operations]
  rw [sendChain_cons eval frame h .origin, List.map_cons, sendRun, required_some, pure_bind, hsend]
  rfl

/-! ### Expressions -/

variable {runs : List Node} (h : ∀ run ∈ runs, run.kind = .messages)

include h

theorem expression_chain (receiver : Node) (messages : List Node) :
    expression eval (.chain receiver messages runs) frame =
      eval receiver frame >>= fun value =>
        if value.isNil then Eval.fail (.unresolvedPrimary receiver.describe) receiver.span
        else sendChain eval frame value messages runs := by
  refine (expression_compose eval frame receiver _).trans ?_
  refine congrArg _ (funext fun value => ?_)
  have hruns : ∀ run ∈ Node.runOf messages ++ runs, run.kind = .messages := by
    refine List.forall_mem_append.mpr ⟨?_, h⟩
    cases messages <;> simp [Node.runOf, Node.compose]
  rw [sendChain, runs_span eval frame hruns _ .origin]

/-- The front of an expression is evaluated like an expression of its own. What it comes to may be
nil. -/
theorem expression_chain_append (receiver : Node) (before : List Node) {after : List Node}
    (hs : after = [] → runs = []) :
    expression eval (.chain receiver (before ++ after) runs) frame =
      expression eval (.sending receiver before) frame >>= fun value =>
        sendChain eval frame value after runs := by
  cases after with
  | nil =>
      obtain rfl := hs rfl
      rw [List.append_nil, Node.chain_nil]
      exact (bind_pure _).symm
  | cons message messages =>
      have hne : before ++ message :: messages ≠ [] := by simp
      obtain ⟨first, others, hall⟩ := List.exists_cons_of_ne_nil hne
      rw [expression_chain eval frame h, expression_sending eval frame receiver before .origin,
        bind_assoc]
      refine congrArg _ (funext fun value => ?_)
      split
      · rfl
      · rw [hall, sendChain_cons eval frame h .origin, ← hall,
          sendRun_append eval frame .origin value value before (by simp), bind_assoc, bind_assoc]
        refine congrArg _ (funext fun pair => ?_)
        rw [pure_bind, sendChain_cons eval frame h .origin]

end Evaluator

/-! ### Results at any depth -/

/-- A tree comes to a result in a frame if it may nest deep enough. -/
def Node.ComesTo (node : Node) (frame : FrameId) (machine : Machine)
    (result : EStateM.Result Halt Machine Value) : Prop :=
  Yields (fun depth => evalUpTo depth node frame) machine result

open Evaluator

section

variable {frame : FrameId} {machine behind : Machine} {result : EStateM.Result Halt Machine Value}

theorem evalUpTo_deepens (node : Node) (frame : FrameId) :
    Deepens fun depth => evalUpTo depth node frame :=
  fun h => evalUpTo_below h node frame

theorem Node.ComesTo.unique {node : Node} {other : EStateM.Result Halt Machine Value}
    (h : node.ComesTo frame machine result) (h' : node.ComesTo frame machine other) :
    result = other :=
  Yields.unique (evalUpTo_deepens node frame) h h'

/-- An expression needs one level more than what it consists of. -/
theorem comesTo_expression_iff {node : Node} (h : node.kind = .expression) :
    node.ComesTo frame machine result ↔
      Yields (fun depth => expression (evalUpTo depth) node frame) machine result := by
  have hstep : ∀ depth, evalUpTo (depth + 1) node frame machine =
      expression (evalUpTo depth) node frame machine :=
    fun depth => congrFun (evalUpTo_expression h depth) machine
  constructor
  · rintro ⟨depth, hr, hs⟩
    cases depth with
    | zero =>
        subst hr
        exact absurd rfl (hs machine)
    | succ depth => exact ⟨depth, (hstep depth).symm.trans hr, hs⟩
  · rintro ⟨depth, hr, hs⟩
    exact ⟨depth + 1, (hstep depth).trans hr, hs⟩

theorem expression_deepens (node : Node) (frame : FrameId) :
    Deepens fun depth => expression (evalUpTo depth) node frame :=
  fun h => expression_below (fun node frame => evalUpTo_below h node frame) node frame

theorem sendChain_deepens (value : Value) (messages runs : List Node) :
    Deepens fun depth => sendChain (evalUpTo depth) frame value messages runs :=
  fun h => runs_below (fun node frame => evalUpTo_below h node frame) frame .origin value _

/-- What a chain of messages makes of its receiver, which must not be nil. -/
def tested (receiver : Node) (messages runs : List Node) (frame : FrameId) (value : Value)
    (depth : Nat) : Eval Value :=
  if value.isNil then Eval.fail (.unresolvedPrimary receiver.describe) receiver.span
  else sendChain (evalUpTo depth) frame value messages runs

theorem tested_deepens (receiver : Node) (messages runs : List Node) (value : Value) :
    Deepens (tested receiver messages runs frame value) :=
  fun h => .ite (.refl _) (sendChain_deepens value messages runs h)

/-- An evaluation that does not depend on the depth comes to a result at any. -/
theorem yields_const_iff {action : Eval Value} (h : Settled (action machine)) :
    Yields (fun _ => action) machine result ↔ result = action machine := by
  constructor
  · rintro ⟨depth, rfl, -⟩
    rfl
  · rintro rfl
    exact ⟨0, rfl, h⟩

theorem yields_fail_iff {cause : RuntimeCause} {span : Span} :
    Yields (fun _ => Eval.fail cause span) machine result ↔
      result = .error (.fault ⟨cause, span⟩) machine :=
  yields_const_iff fun _ h => nomatch h

variable {receiver : Node} {runs : List Node} (h : ∀ run ∈ runs, run.kind = .messages)

include h

theorem chain_comesTo_iff (messages : List Node) :
    (Node.chain receiver messages runs).ComesTo frame machine result ↔
      Yields (fun depth => evalUpTo depth receiver frame >>= fun value =>
        tested receiver messages runs frame value depth) machine result := by
  rw [comesTo_expression_iff rfl]
  simp only [expression_chain _ _ h]
  exact Iff.rfl

/-- An expression on nil fails, whatever is sent. -/
theorem chain_comesTo_of_nil (messages : List Node)
    (hnil : receiver.ComesTo frame machine (.ok .nil behind)) :
    (Node.chain receiver messages runs).ComesTo frame machine result ↔
      result = .error (.fault ⟨.unresolvedPrimary receiver.describe, receiver.span⟩) behind := by
  rw [chain_comesTo_iff h, yields_bind_of_ok (evalUpTo_deepens receiver frame)
    (tested_deepens receiver messages runs) hnil]
  exact yields_fail_iff

theorem chain_append_comesTo_iff (before : List Node) {after : List Node}
    (hs : after = [] → runs = []) :
    (Node.chain receiver (before ++ after) runs).ComesTo frame machine result ↔
      Yields (fun depth => expression (evalUpTo depth) (.sending receiver before) frame >>=
        fun value => sendChain (evalUpTo depth) frame value after runs) machine result := by
  rw [comesTo_expression_iff rfl]
  simp only [expression_chain_append _ _ h _ _ hs]

end

/-! ### With and without parentheses -/

namespace Grammar

theorem OneMessage.isMessage {tokens : List Node} {message : Node} (h : OneMessage tokens message) :
    Evaluator.isMessage message = true := by
  cases h with
  | unary hn => simp [Evaluator.isMessage, hn.kind_eq]
  | binary hd => simp [Evaluator.isMessage, binaryMessage_kind hd]
  | keyword => rfl

namespace Chain

variable {chain : Chain}

/-- What an expression comes to whose front is nil. A receiver that is nil is refused, nil
understands no message, and where no message is left nil is the value. -/
def onNil (chain : Chain) (behind : Machine) : EStateM.Result Halt Machine Value :=
  match chain.before, chain.after with
  | [], _ =>
      .error (.fault ⟨.unresolvedPrimary chain.receiver.value.describe, chain.receiver.value.span⟩)
        behind
  | _ :: _, [] => .ok .nil behind
  | _ :: _, message :: _ =>
      .error (.fault ⟨.noSuchOperation message.value.textOrEmpty
        (operationName message.value.textOrEmpty) .nil, message.value.span⟩) behind

/-- What it comes to with parentheses around the front. -/
def refused (chain : Chain) (behind : Machine) : EStateM.Result Halt Machine Value :=
  .error (.fault ⟨.unresolvedPrimary chain.front.describe, chain.front.span⟩) behind

theorem start_kind : chain.start.kind = .expression := by
  rw [start]
  cases Piece.values chain.before <;> rfl

theorem start_eq_front (h : chain.before ≠ []) : chain.start = chain.front := by
  obtain ⟨message, messages, hb⟩ := List.exists_cons_of_ne_nil h
  simp only [front, hb]

section

variable {frame : FrameId} {machine behind : Machine}

/-- A front without messages is an expression on its receiver. -/
theorem start_eq_chain (h : chain.before = []) : chain.start = .chain chain.front [] [] := by
  rw [Node.chain_nil, start, front, h]
  rfl

theorem start_comesTo_of_nil (h : chain.before = [])
    (hnil : chain.front.ComesTo frame machine (.ok .nil behind)) :
    chain.start.ComesTo frame machine (chain.refused behind) := by
  rw [start_eq_chain h]
  exact (chain_comesTo_of_nil (by simp) [] hnil).mpr rfl

/-- A front that is no message is not nil, or else it fails. -/
theorem before_ne_of_start_nil (hs : chain.start.ComesTo frame machine (.ok .nil behind)) :
    chain.before ≠ [] := by
  intro h
  rw [start_eq_chain h, chain_comesTo_iff (by simp),
    yields_bind_iff (evalUpTo_deepens _ frame) (tested_deepens _ [] [])] at hs
  rcases hs with ⟨halt, last, -, hend⟩ | ⟨value, last, -, depth, hend, -⟩
  · cases hend
  · cases value <;> cases hend

end

namespace Parses

variable (hc : chain.Parses) {frame : FrameId} {machine behind : Machine}
  {result : EStateM.Result Halt Machine Value}

include hc

theorem run_kind : ∀ run ∈ Piece.values chain.runs, run.kind = .messages := by
  intro run hm
  obtain ⟨piece, hp, rfl⟩ := List.mem_map.mp hm
  exact messages_kind (hc.run piece hp)

/-- An expression begins with what could be in parentheses. -/
theorem tree_comesTo_iff :
    chain.tree.ComesTo frame machine result ↔
      Yields (fun depth => Evaluator.expression (evalUpTo depth) chain.start frame >>= fun value =>
        sendChain (evalUpTo depth) frame value (Piece.values chain.after)
          (Piece.values chain.runs)) machine result := by
  have hsplit : chain.after.map Piece.value = [] → Piece.values chain.runs = [] := by
    intro h
    rw [chain.split (List.map_eq_nil_iff.mp h), Piece.values_nil]
  rw [tree, Piece.values, List.map_append]
  exact chain_append_comesTo_iff hc.run_kind _ hsplit

/-- So it does if that is in parentheses, and is tested then. -/
theorem regrouped_comesTo_iff :
    chain.regrouped.ComesTo frame machine result ↔
      Yields (fun depth => evalUpTo depth chain.start frame >>= fun value =>
        tested chain.start (Piece.values chain.after) (Piece.values chain.runs) frame value depth)
        machine result :=
  chain_comesTo_iff hc.run_kind _

/-- A front that is not nil may be put in parentheses. -/
theorem comesTo_iff_of_not_nil
    (hnil : ∀ last, ¬ chain.front.ComesTo frame machine (.ok .nil last)) :
    chain.tree.ComesTo frame machine result ↔ chain.regrouped.ComesTo frame machine result := by
  rw [hc.tree_comesTo_iff, hc.regrouped_comesTo_iff,
    yields_bind_iff (expression_deepens _ frame) fun value => sendChain_deepens value _ _,
    yields_bind_iff (evalUpTo_deepens _ frame) (tested_deepens _ _ _)]
  simp only [← comesTo_expression_iff start_kind]
  refine or_congr Iff.rfl (exists_congr fun value => exists_congr fun last => ?_)
  refine and_congr_right fun hv => ?_
  have hvalue : ¬ value.isNil = true := by
    cases value with
    | nil => exact absurd (start_eq_front (before_ne_of_start_nil hv) ▸ hv) (hnil last)
    | string | number | block => simp [Value.isNil]
  have htested : tested chain.start (Piece.values chain.after) (Piece.values chain.runs) frame
      value = fun depth => sendChain (evalUpTo depth) frame value (Piece.values chain.after)
        (Piece.values chain.runs) :=
    funext fun depth => if_neg hvalue
  rw [htested]

section

variable (hnil : chain.front.ComesTo frame machine (.ok .nil behind))

include hnil

theorem regrouped_comesTo_of_nil :
    chain.regrouped.ComesTo frame machine result ↔ result = chain.refused behind := by
  by_cases hb : chain.before = []
  · have hstart := start_comesTo_of_nil hb hnil
    rw [hc.regrouped_comesTo_iff]
    exact yields_bind_of_error (evalUpTo_deepens _ frame) (tested_deepens _ _ _) hstart
  · rw [← start_eq_front hb] at hnil
    rw [regrouped, chain_comesTo_of_nil hc.run_kind _ hnil, refused, start_eq_front hb]

theorem tree_comesTo_of_nil :
    chain.tree.ComesTo frame machine result ↔ result = chain.onNil behind := by
  cases hb : chain.before with
  | nil =>
      have hfront : chain.front = chain.receiver.value := by rw [front, hb]
      rw [hfront] at hnil
      rw [tree, chain_comesTo_of_nil hc.run_kind _ hnil, onNil, hb]
  | cons first others =>
      have hstart : chain.start.ComesTo frame machine (.ok .nil behind) := by
        rwa [start_eq_front (by simp [hb])]
      rw [hc.tree_comesTo_iff, yields_bind_of_ok (expression_deepens _ frame)
        (fun value => sendChain_deepens value _ _) ((comesTo_expression_iff start_kind).mp hstart)]
      cases ha : chain.after with
      | nil =>
          rw [chain.split ha, onNil, hb, ha]
          exact yields_const_iff (settled_ok _ _)
      | cons message messages =>
          have hmessage := (hc.message message (by simp [ha])).isMessage
          simp only [Piece.values_cons, sendChain_of_nil _ _ hmessage hc.run_kind, onNil, hb, ha]
          exact yields_fail_iff

end

end Parses

end Chain

end Grammar

end MiniSmalltalk
