import MiniSmalltalk.Proofs.Evaluation.Provenance
import MiniSmalltalk.Proofs.Evaluation.Triple
import MiniSmalltalk.Proofs.Grammar.Selectors

/-! # Dispatch

The protocols say which operations a receiver understands, and performing a message agrees with
them: what is not understood fails and changes nothing, everything else is dealt with in one of a
few ways. A message that was read brings the right number of arguments to a string or a number,
unless a name takes the place of a binary selector. -/

namespace MiniSmalltalk

open Grammar Token

/-! ### Ways to deal with a message -/

/-- The operations of strings and numbers that take an argument. -/
def Value.dyadic : List String := ["add", "subtract", "multiply", "divide", "concat"]

def Value.takes (receiver : Value) (operation : String) : Nat :=
  match receiver with
  | .block called => if operation = "numArgs" then 0 else called.arity
  | _ => if operation ∈ dyadic then 1 else 0

def Value.IsPlain (value : Value) : Prop := value.kind = .string ∨ value.kind = .number

def Block.calls : List String :=
  ["value", "value_", "value_value_", "value_value_value_", "valueWithArguments_"]

/-- What a block comes to in a frame, which is nil if it has no body. -/
def Block.runIn (run : Evaluator) (block : Block) (frame : FrameId) : Eval Value :=
  match block.body with
  | some body => run body frame
  | none => return .nil

namespace Message

/-- The ways in which a receiver deals with a message that it understands. -/
inductive Handled (run : Evaluator) (receiver : Value) (message : Message) (machine : Machine) :
    EStateM.Result Halt Machine Value → Prop where
  | wrongCount : message.arguments.length ≠ receiver.takes message.operation →
      Handled run receiver message machine
        (.error (.fault ⟨.argumentCount (receiver.takes message.operation)
          message.arguments.length, message.span⟩) machine)
  | wrongType {got : Value} : receiver.IsPlain → message.arguments = [got] →
      got.kind ≠ receiver.kind →
      Handled run receiver message machine
        (.error (.fault ⟨.argumentType message.selector receiver.kind got.kind, message.span⟩)
          machine)
  /-- Strings and numbers touch nothing but the transcript. -/
  | answered {value : Value} {transcript : Transcript} : receiver.IsPlain →
      message.arguments.length = receiver.takes message.operation → value.IsPlain →
      Handled run receiver message machine (.ok value { machine with transcript })
  | parameters {block : Block} : receiver = .block block → message.operation = "numArgs" →
      message.arguments = [] →
      Handled run receiver message machine (.ok (.number (Float.ofNat block.arity)) machine)
  /-- The block runs in a new frame with its bindings. -/
  | ran {block : Block} : receiver = .block block → message.operation ∈ Block.calls →
      message.arguments.length = block.arity →
      Handled run receiver message machine
        (block.runIn run machine.heap.size
          (machine.pushFrame (some block.frame) (callBindings block message.arguments)).2)

/-- How a message is performed agrees with the protocol of its receiver. -/
structure Agrees (run : Evaluator) (receiver : Value) (message : Message) (action : Eval Value) :
    Prop where
  refused : receiver.respondsTo message.operation = false → action = message.notUnderstood receiver
  handled : receiver.respondsTo message.operation = true →
    ∀ machine, Handled run receiver message machine (action machine)

section

variable {run : Evaluator} {receiver : Value} {message : Message}

theorem agrees_of_handled {action : Eval Value}
    (hu : message.operation ∈ receiver.kind.operations)
    (h : ∀ machine, Handled run receiver message machine (action machine)) :
    Agrees run receiver message action :=
  ⟨fun hn => absurd hu (by simpa [Value.respondsTo] using hn), fun _ => h⟩

theorem agrees_of_refused (hu : message.operation ∉ receiver.kind.operations) :
    Agrees run receiver message (message.notUnderstood receiver) :=
  ⟨fun _ => rfl, fun h => absurd (by simpa [Value.respondsTo] using h) hu⟩

theorem Handled.wrongCount_of_takes {expected : Nat}
    (ht : receiver.takes message.operation = expected)
    (hl : message.arguments.length ≠ expected) (machine : Machine) :
    Handled run receiver message machine
      (.error (.fault ⟨.argumentCount expected message.arguments.length, message.span⟩)
        machine) := by
  subst ht
  exact .wrongCount hl

/-! ### Operations with and without an argument -/

theorem takes_of_isPlain (hr : receiver.IsPlain) (operation : String) :
    receiver.takes operation = if operation ∈ Value.dyadic then 1 else 0 := by
  cases receiver with
  | block => simp [Value.IsPlain, Value.kind] at hr
  | _ => rfl

theorem expectCount_bind (message : Message) (expected : Nat) (next : Eval Value)
    (machine : Machine) :
    (message.expectCount expected >>= fun _ => next) machine =
      if message.arguments.length = expected then next machine
      else .error (.fault ⟨.argumentCount expected message.arguments.length, message.span⟩)
        machine := by
  unfold expectCount
  split <;> rfl

/-- An operation without arguments checks that there are none. -/
theorem agrees_alone {next : Eval Value} {value : Value} (hr : receiver.IsPlain)
    (hop : message.operation ∈ receiver.kind.operations ∧ message.operation ∉ Value.dyadic)
    (hn : ∀ machine, ∃ transcript, next machine = .ok value { machine with transcript })
    (hv : value.IsPlain) :
    Agrees run receiver message (message.expectCount 0 >>= fun _ => next) := by
  have htakes : receiver.takes message.operation = 0 := by
    rw [takes_of_isPlain hr, if_neg hop.2]
  refine agrees_of_handled hop.1 fun machine => ?_
  obtain ⟨transcript, hnext⟩ := hn machine
  rw [expectCount_bind, hnext]
  split
  · rename_i hl
    exact .answered hr (hl.trans htakes.symm) hv
  · exact .wrongCount_of_takes htakes ‹_› machine

/-- The ways to ask for the only argument, which has to be of a class. -/
inductive Argument {α : Type} (message : Message) (expected : ValueKind) : Eval α → Prop where
  | found {got : Value} {value : α} : message.arguments = [got] →
      Argument message expected (return value)
  | wrongType {got : Value} : message.arguments = [got] → got.kind ≠ expected →
      Argument message expected (message.wrongType expected got)
  | wrongCount : message.arguments.length ≠ 1 →
      Argument message expected (Eval.fail (.argumentCount 1 message.arguments.length) message.span)

theorem length_ne_one {arguments : List Value} (h : ∀ got, arguments = [got] → False) :
    arguments.length ≠ 1 := by
  intro hl
  obtain ⟨got, hgot⟩ := List.length_eq_one_iff.mp hl
  exact h got hgot

theorem numberArgument_argument (message : Message) :
    Argument message .number message.numberArgument := by
  unfold numberArgument
  split
  · exact .found ‹_›
  · rename_i got hne hgot
    refine .wrongType hgot ?_
    cases got <;> simp_all [Value.kind]
  · exact .wrongCount (length_ne_one ‹_›)

theorem stringArgument_argument (message : Message) :
    Argument message .string message.stringArgument := by
  unfold stringArgument
  split
  · exact .found ‹_›
  · rename_i got hne hgot
    refine .wrongType hgot ?_
    cases got <;> simp_all [Value.kind]
  · exact .wrongCount (length_ne_one ‹_›)

/-- An operation with an argument asks for one of the class of its receiver. -/
theorem agrees_with {α : Type} {argument : Eval α} {answer : α → Value} (hr : receiver.IsPlain)
    (hop : message.operation ∈ receiver.kind.operations ∧ message.operation ∈ Value.dyadic)
    (ha : Argument message receiver.kind argument) (hv : ∀ value, (answer value).IsPlain) :
    Agrees run receiver message (do return answer (← argument)) := by
  have htakes : receiver.takes message.operation = 1 := by
    rw [takes_of_isPlain hr, if_pos hop.2]
  refine agrees_of_handled hop.1 fun machine => ?_
  cases ha with
  | @found got value hgot =>
      exact @Handled.answered _ _ _ _ _ machine.transcript hr (by simp [hgot, htakes]) (hv value)
  | wrongType hgot hne => exact .wrongType hr hgot hne
  | wrongCount hl => exact .wrongCount_of_takes htakes hl machine

/-- How the wrong number of arguments shows in a string or a number. -/
theorem Handled.argumentCount (hr : receiver.IsPlain) {machine behind : Machine}
    {expected got : Nat} {span : Span}
    (h : Handled run receiver message machine
      (.error (.fault ⟨.argumentCount expected got, span⟩) behind)) :
    got ≠ expected ∧ got = message.arguments.length ∧
      expected = receiver.takes message.operation ∧ span = message.span ∧ behind = machine := by
  generalize hresult : EStateM.Result.error _ behind = result at h
  cases h with
  | wrongCount hne =>
      cases hresult
      exact ⟨hne, rfl, rfl, rfl, rfl⟩
  | wrongType => cases hresult
  | answered => cases hresult
  | parameters => cases hresult
  | ran hb =>
      subst hb
      simp [Value.IsPlain, Value.kind] at hr

/-! ### Strings, numbers and blocks -/

theorem performString_agrees (text : String) :
    Agrees run (.string text) message (message.performString text) := by
  have halone : ∀ operation ∈ ["printNl", "displayNl", "printString", "size"],
      operation ∈ ValueKind.string.operations ∧ operation ∉ Value.dyadic := by decide
  have hwith : "concat" ∈ ValueKind.string.operations ∧ "concat" ∈ Value.dyadic := by decide
  have hargument := stringArgument_argument message
  unfold performString
  split
  · rename_i hop
    exact agrees_with (.inl rfl) (hop ▸ hwith) hargument fun _ => .inl rfl
  · exact agrees_alone (.inl rfl) (halone _ (by simp [*])) (fun _ => ⟨_, rfl⟩) (.inl rfl)
  · exact agrees_alone (.inl rfl) (halone _ (by simp [*])) (fun _ => ⟨_, rfl⟩) (.inl rfl)
  · exact agrees_alone (.inl rfl) (halone _ (by simp [*])) (fun _ => ⟨_, rfl⟩) (.inl rfl)
  · exact agrees_alone (.inl rfl) (halone _ (by simp [*])) (fun _ => ⟨_, rfl⟩) (.inr rfl)
  · exact agrees_of_refused (by simp_all [Value.kind, ValueKind.operations])

theorem performNumber_agrees (value : Float) :
    Agrees run (.number value) message (message.performNumber value) := by
  have halone : ∀ operation ∈ ["negated", "printNl", "displayNl", "printString"],
      operation ∈ ValueKind.number.operations ∧ operation ∉ Value.dyadic := by decide
  have hwith : ∀ operation ∈ ["add", "subtract", "multiply", "divide"],
      operation ∈ ValueKind.number.operations ∧ operation ∈ Value.dyadic := by decide
  have hargument := numberArgument_argument message
  unfold performNumber
  split
  · exact agrees_with (.inr rfl) (hwith _ (by simp [*])) hargument fun _ => .inr rfl
  · exact agrees_with (.inr rfl) (hwith _ (by simp [*])) hargument fun _ => .inr rfl
  · exact agrees_with (.inr rfl) (hwith _ (by simp [*])) hargument fun _ => .inr rfl
  · exact agrees_with (.inr rfl) (hwith _ (by simp [*])) hargument fun _ => .inr rfl
  · exact agrees_alone (.inr rfl) (halone _ (by simp [*])) (fun _ => ⟨_, rfl⟩) (.inr rfl)
  · exact agrees_alone (.inr rfl) (halone _ (by simp [*])) (fun _ => ⟨_, rfl⟩) (.inr rfl)
  · exact agrees_alone (.inr rfl) (halone _ (by simp [*])) (fun _ => ⟨_, rfl⟩) (.inr rfl)
  · exact agrees_alone (.inr rfl) (halone _ (by simp [*])) (fun _ => ⟨_, rfl⟩) (.inl rfl)
  · exact agrees_of_refused (by simp_all [Value.kind, ValueKind.operations])

theorem call_handled {block : Block} (hop : message.operation ∈ Block.calls) (machine : Machine) :
    Handled run (.block block) message machine
      (call run block message.arguments message.span machine) := by
  have htakes : (Value.block block).takes message.operation = block.arity := by
    refine if_neg ?_
    intro hn
    rw [hn] at hop
    exact absurd hop (by decide)
  unfold call
  split
  · rename_i hl
    exact @Handled.ran run _ message machine block rfl hop hl
  · exact .wrongCount_of_takes htakes ‹_› machine

theorem performBlock_eq (run : Evaluator) (message : Message) (block : Block) :
    message.performBlock run block =
      if message.operation ∈ Block.calls then call run block message.arguments message.span
      else if message.operation = "numArgs" then do
        message.expectCount 0
        return .number (Float.ofNat block.arity)
      else message.notUnderstood (.block block) := by
  unfold performBlock
  split <;> simp_all [Block.calls]

theorem performBlock_agrees (block : Block) :
    Agrees run (.block block) message (message.performBlock run block) := by
  rw [performBlock_eq]
  split
  · rename_i hop
    refine agrees_of_handled ?_ (call_handled hop)
    exact (by decide : ∀ operation ∈ Block.calls, operation ∈ ValueKind.block.operations) _ hop
  · split
    · rename_i hop
      have htakes : (Value.block block).takes message.operation = 0 := if_pos hop
      refine agrees_of_handled (by simp [hop, Value.kind, ValueKind.operations]) fun machine => ?_
      rw [expectCount_bind]
      split
      · exact .parameters rfl hop (List.length_eq_zero_iff.mp ‹_›)
      · exact .wrongCount_of_takes htakes ‹_› machine
    · exact agrees_of_refused (by simp_all [Value.kind, ValueKind.operations, Block.calls])

/-- Performing a message agrees with the protocol of its receiver. -/
theorem performWith_agrees (run : Evaluator) (receiver : Value) (message : Message) :
    Agrees run receiver message (message.performWith run receiver) := by
  cases receiver with
  | nil => exact agrees_of_refused (by simp [Value.kind, ValueKind.operations])
  | string text => exact performString_agrees text
  | number value => exact performNumber_agrees value
  | block block => exact performBlock_agrees block

end

end Message

/-! ### Operations of selectors -/

theorem operationName_of_isName {selector : String} (h : isName selector.toList = true) :
    operationName selector = selector := by
  have hsame : selector.toList.map (fun c => if c = ':' then '_' else c) = selector.toList := by
    refine (List.map_congr_left fun c hc => if_neg ?_).trans (List.map_id' _)
    rintro rfl
    exact absurd (isAlphanum_of_mem_name h _ hc) (by decide)
  unfold operationName
  split
  case h_6 => rw [hsame, String.ofList_toList]
  all_goals exact absurd h (by decide)

/-- The operation of a keyword selector has an underscore for each of its colons. -/
theorem underscore_mem_operationName {selector : String} (h : ':' ∈ selector.toList) :
    '_' ∈ (operationName selector).toList := by
  unfold operationName
  split
  case h_6 =>
    rw [String.toList_ofList]
    exact List.mem_map.mpr ⟨':', h, rfl⟩
  all_goals exact absurd h (by decide)

theorem operationName_of_length_one {selector : String} (h : selector.toList.length = 1) :
    operationName selector ∈ Value.dyadic ∨ (operationName selector).toList.length = 1 := by
  unfold operationName
  split
  case h_6 => exact .inr (by simpa using h)
  all_goals exact .inl (by decide)

namespace Evaluator

variable {eval : Evaluator} {frame : FrameId} {receiver : Value} {message : Node}
  {machine : Machine}

theorem isMessage_of_sendable (h : Sendable message) : isMessage message = true := by
  cases h <;> simp [isMessage, *]

theorem send_of_refused (hm : isMessage message = true)
    (hu : receiver.respondsTo (operationName message.textOrEmpty) = false) (machine : Machine) :
    send eval frame receiver message machine =
      .error (.fault ⟨.noSuchOperation message.textOrEmpty (operationName message.textOrEmpty)
        receiver.kind, message.span⟩) machine := by
  simp only [send, hm, hu, if_true]
  rfl

theorem send_of_understood (hm : isMessage message = true)
    (hu : receiver.respondsTo (operationName message.textOrEmpty) = true) :
    send eval frame receiver message =
      (arguments eval frame message.span message.children >>= fun values =>
        Message.performWith eval receiver
          ⟨message.textOrEmpty, operationName message.textOrEmpty, values, message.span⟩) := by
  simp only [send, hm, hu, if_true]

theorem arguments_length (eval : Evaluator) (frame : FrameId) (span : Span)
    (slots : List (Option Node)) :
    Eval.Triple (fun _ => True) (arguments eval frame span slots)
      (fun values _ => values.length = slots.length) fun _ _ => True := by
  have hany : ∀ {α : Type} (action : Eval α),
      Eval.Triple (fun _ => True) action (fun _ _ => True) fun _ _ => True := by
    intro α action machine _
    cases action machine <;> trivial
  induction slots with
  | nil => exact .pure fun _ _ => rfl
  | cons slot slots ih =>
      refine (hany _).bind fun node => (hany _).bind fun value => ih.bind fun values => ?_
      exact .pure fun _ h => congrArg Nat.succ h

/-- A string or a number is given another number of arguments than it takes only where a name
stands for an operation that needs one. -/
theorem unary_of_takes_ne (h : Sendable message) (hr : receiver.IsPlain)
    (hu : receiver.respondsTo (operationName message.textOrEmpty) = true)
    (hne : message.children.length ≠ receiver.takes (operationName message.textOrEmpty)) :
    message.kind = .identifier ∧ message.textOrEmpty ∈ Value.dyadic ∧ message.children = [] := by
  rw [Message.takes_of_isPlain hr] at hne
  have hop : operationName message.textOrEmpty ∈
      ValueKind.string.operations ++ ValueKind.number.operations := by
    rw [Value.respondsTo, List.contains_iff_mem] at hu
    rcases hr with hk | hk <;> rw [hk] at hu <;> simp [hu]
  cases h with
  | unary hk hn hc =>
      refine ⟨hk, ?_, hc⟩
      rw [operationName_of_isName hn] at hne
      by_cases hd : message.textOrEmpty ∈ Value.dyadic
      · exact hd
      · exact absurd (by rw [if_neg hd, hc, List.length_nil]) hne
  | binary hk _ ht hc =>
      have hlong := (by decide : ∀ operation ∈ ValueKind.string.operations ++
        ValueKind.number.operations, operation.toList.length ≠ 1) _ hop
      have hd := (operationName_of_length_one (by simp [ht])).resolve_right hlong
      rw [if_pos hd, hc] at hne
      exact absurd rfl hne
  | keyword hk hne' hn ht hc hl =>
      have hplain := (by decide : ∀ operation ∈ ValueKind.string.operations ++
        ValueKind.number.operations, '_' ∉ operation.toList) _ hop
      refine absurd (underscore_mem_operationName ?_) hplain
      rw [← List.count_pos_iff, ht, count_colons hn]
      exact List.length_pos_iff.mpr hne'

/-- Where a string or a number is not given the right number of arguments, the message is a name
and nothing has changed, unless it was an argument that failed so. -/
theorem send_argumentCount (h : Sendable message) (hr : receiver.IsPlain) {expected got : Nat}
    {span : Span} {behind : Machine}
    (hs : send eval frame receiver message machine =
      .error (.fault ⟨.argumentCount expected got, span⟩) behind) :
    (message.kind = .identifier ∧ message.textOrEmpty ∈ Value.dyadic ∧ expected = 1 ∧ got = 0 ∧
        span = message.span ∧ behind = machine) ∨
      arguments eval frame message.span message.children machine =
        .error (.fault ⟨.argumentCount expected got, span⟩) behind := by
  have hm := isMessage_of_sendable h
  cases hu : receiver.respondsTo (operationName message.textOrEmpty) with
  | false =>
      rw [send_of_refused hm hu] at hs
      cases hs
  | true =>
      rw [send_of_understood hm hu] at hs
      cases ha : arguments eval frame message.span message.children machine with
      | error halt later =>
          rw [Eval.bind_of_error ha] at hs
          cases hs
          exact .inr rfl
      | ok values later =>
          rw [Eval.bind_of_ok ha] at hs
          have hlength := arguments_length eval frame message.span message.children machine trivial
          rw [ha] at hlength
          have hhandled := (Message.performWith_agrees eval receiver ⟨message.textOrEmpty,
            operationName message.textOrEmpty, values, message.span⟩).handled hu later
          rw [hs] at hhandled
          obtain ⟨hne, rfl, rfl, rfl, rfl⟩ := hhandled.argumentCount hr
          obtain ⟨hk, hd, hc⟩ := unary_of_takes_ne h hr hu (hlength ▸ hne)
          rw [hc] at ha
          cases ha
          have hname := (by decide : ∀ word ∈ Value.dyadic, operationName word ∈ Value.dyadic) _ hd
          exact .inl ⟨hk, hd, by rw [Message.takes_of_isPlain hr, if_pos hname], rfl, rfl, rfl⟩

end Evaluator

/-- What a receiver does not understand fails and changes nothing; everything else it deals with,
and never as if it did not understand it. A message that was read fails before any argument is
evaluated if it is not understood. It has as many arguments as its selector asks for, so that a
string or a number refuses their number only where a name stands for an operation that needs one,
unless an argument has failed so. -/
theorem performing_agrees_with_protocols :
    (∀ (run : Evaluator) (receiver : Value) (message : Message) (machine : Machine),
      (receiver.respondsTo message.operation = false →
        message.performWith run receiver machine =
          .error (.fault ⟨.noSuchOperation message.selector message.operation receiver.kind,
            message.span⟩) machine) ∧
      (receiver.respondsTo message.operation = true →
        Message.Handled run receiver message machine
          (message.performWith run receiver machine))) ∧
    ∀ message : Node, ReadMessage message →
      (message.kind = .identifier ∧ message.children.length = 0 ∨
        message.kind = .binary ∧ message.children.length = 1 ∨
        message.kind = .keyword ∧
          message.children.length = message.textOrEmpty.toList.count ':') ∧
      ∀ (eval : Evaluator) (frame : FrameId) (receiver : Value) (machine : Machine),
        (receiver.respondsTo (operationName message.textOrEmpty) = false →
          Evaluator.send eval frame receiver message machine =
            .error (.fault ⟨.noSuchOperation message.textOrEmpty
              (operationName message.textOrEmpty) receiver.kind, message.span⟩) machine) ∧
        (receiver.IsPlain → ∀ (expected got : Nat) (span : Span) (behind : Machine),
          Evaluator.send eval frame receiver message machine =
              .error (.fault ⟨.argumentCount expected got, span⟩) behind →
            (message.kind = .identifier ∧ message.textOrEmpty ∈ Value.dyadic ∧ expected = 1 ∧
                got = 0 ∧ span = message.span ∧ behind = machine) ∨
              Evaluator.arguments eval frame message.span message.children machine =
                .error (.fault ⟨.argumentCount expected got, span⟩) behind) := by
  refine ⟨fun run receiver message machine => ?_, fun message hread => ?_⟩
  · have hagrees := Message.performWith_agrees run receiver message
    refine ⟨fun hu => ?_, fun hu => hagrees.handled hu machine⟩
    rw [hagrees.refused hu]
    rfl
  · have hsendable := hread.sendable
    refine ⟨?_, fun eval frame receiver machine => ⟨fun hu => ?_, ?_⟩⟩
    · obtain ⟨hunary, hbinary, hkeyword⟩ := hsendable.length_children
      cases hsendable with
      | unary hk => exact .inl ⟨hk, hunary hk⟩
      | binary hk => exact .inr (.inl ⟨hk, hbinary hk⟩)
      | keyword hk => exact .inr (.inr ⟨hk, hkeyword hk⟩)
    · exact Evaluator.send_of_refused (Evaluator.isMessage_of_sendable hsendable) hu machine
    · exact fun hr expected got span behind hs => Evaluator.send_argumentCount hsendable hr hs

/-- Two segments that no number understands, and a name in the place of a binary selector. -/
theorem performing_agrees_with_protocols_numbers :
    (∃ message, ReadMessage message ∧ message.textOrEmpty = "at:put:" ∧
      message.children.length = message.textOrEmpty.toList.count ':' ∧
      Evaluator.send (evalUpTo 0) 0 (.number 1) message .initial =
        .error (.fault ⟨.noSuchOperation "at:put:" "at_put_" .number, ⟨2, 14⟩⟩) .initial) ∧
    ∃ message, ReadMessage message ∧ message.kind = .identifier ∧
      message.textOrEmpty ∈ Value.dyadic ∧
      Evaluator.send (evalUpTo 0) 0 (.number 1) message .initial =
        .error (.fault ⟨.argumentCount 1 0, ⟨0, 3⟩⟩) .initial := by
  have hread := performing_agrees_with_protocols.2
  refine ⟨?_, ?_⟩
  · have hgiven : (parseProgram "1 at: 2 put: x").toOption.bind (fun parsed =>
        parsed.program.bind fun tree => (tree.child? 1).bind fun run => (run.child? 0).map
          fun node => (run.kind, node.kind, node.textOrEmpty, node.span)) =
        some (.messages, .keyword, "at:put:", ⟨2, 14⟩) := by decide +kernel
    cases hp : parseProgram "1 at: 2 put: x" with
    | error fault => simp [hp, Except.toOption] at hgiven
    | ok parsed =>
        simp only [hp, Except.toOption, Option.bind_some, Option.bind_eq_some_iff,
          Option.map_eq_some_iff, Prod.mk.injEq] at hgiven
        obtain ⟨tree, ht, run, hrun, message, hm, hk, hkind, htext, hspan⟩ := hgiven
        have hmessage := readMessage_of_parseProgram hp ht (.child .root (Node.mem_of_child? hrun))
          hk (Node.mem_of_child? hm)
        obtain ⟨hcount, hsend⟩ := hread message hmessage
        refine ⟨message, hmessage, htext, by simpa [hkind] using hcount, ?_⟩
        have hrefused := (hsend (evalUpTo 0) 0 (.number 1) .initial).1 (by rw [htext]; rfl)
        rwa [htext, hspan] at hrefused
  · have hgiven : (givenTree (Rule.unaryMessage.reader (.ofString "add"))).map
        (fun node => (node.kind, node.textOrEmpty, node.span)) =
        some (.identifier, "add", ⟨0, 3⟩) := by decide +kernel
    obtain ⟨message, hfound, hparts⟩ := Option.map_eq_some_iff.mp hgiven
    obtain ⟨behind, hr⟩ := exists_of_givenTree hfound
    simp only [Prod.mk.injEq] at hparts
    obtain ⟨hkind, htext, hspan⟩ := hparts
    have hmessage := ReadMessage.alone (TokenStream.allLexical_ofString _) rfl hr
    obtain ⟨hcount, hsend⟩ := hread message hmessage
    have hchildren : message.children = [] := by simpa [hkind] using hcount
    have hfault : Evaluator.send (evalUpTo 0) 0 (.number 1) message .initial =
        .error (.fault ⟨.argumentCount 1 0, ⟨0, 3⟩⟩) .initial := by
      rw [Evaluator.send_of_understood (by simp [Evaluator.isMessage, hkind])
        (by rw [htext]; rfl), htext, hspan, hchildren]
      rfl
    obtain ⟨hk, hd, -⟩ | harguments :=
      (hsend (evalUpTo 0) 0 (.number 1) .initial).2 (.inr rfl) _ _ _ _ hfault
    · exact ⟨message, hmessage, hk, hd, hfault⟩
    · rw [hchildren] at harguments
      cases harguments

end MiniSmalltalk
