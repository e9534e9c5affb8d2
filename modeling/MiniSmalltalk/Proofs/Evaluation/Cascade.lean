import MiniSmalltalk.Proofs.Evaluation.Depth
import MiniSmalltalk.Proofs.Evaluation.Naturality
import MiniSmalltalk.Proofs.Grammar.Cascade

/-! # Evaluating cascades

A cascade is evaluated like the statements that give its receiver a name: the receiver of the last
message of the first run is evaluated once, and every run is sent to it. -/

namespace MiniSmalltalk

open Eval

namespace Evaluator

variable (eval : Evaluator) (frame : FrameId)

/-! ### The parts of a cascade -/

theorem required_some (node : Node) (span : Span) :
    (required (some node) span : Eval Node) = pure node := rfl

theorem requiredRun_messages {run : Node} (h : run.kind = .messages) (span : Span) :
    (requiredRun (some run) span : Eval Node) = pure run := by
  simp [requiredRun, h]

/-- The messages behind are sent to what those in front come to, whatever came before it. -/
theorem sendRun_append (span : Span) (receiver previous : Value) (front : List Node)
    {back : List Node} (h : back ≠ []) :
    sendRun eval frame span receiver previous ((front ++ back).map some) =
      sendRun eval frame span receiver previous (front.map some) >>= fun pair =>
        sendRun eval frame span pair.1 pair.1 (back.map some) := by
  induction front generalizing receiver previous with
  | nil =>
      obtain ⟨message, messages, rfl⟩ := List.exists_cons_of_ne_nil h
      rfl
  | cons message messages ih =>
      simp only [List.cons_append, List.map_cons, sendRun, required_some, pure_bind, bind_assoc, ih]

theorem cascades_cons {run : Node} (h : run.kind = .messages) (span : Span)
    (receiver last : Value) (runs : List Node) :
    cascades eval frame span receiver last ((run :: runs).map some) =
      sendRun eval frame run.span receiver receiver run.children >>= fun pair =>
        cascades eval frame span receiver pair.1 (runs.map some) := by
  simp only [List.map_cons, cascades, requiredRun_messages h, pure_bind]

/-- The receiver of an expression, which must not be nil, and what becomes of it. -/
theorem expression_compose (receiver : Node) (runs : List Node) :
    expression eval (.compose .expression (receiver :: runs)) frame =
      eval receiver frame >>= fun value =>
        if value.isNil then Eval.fail (.unresolvedPrimary receiver.describe) receiver.span
        else Evaluator.runs eval frame (Node.compose .expression (receiver :: runs)).span value
          (runs.map some) := rfl

theorem sendRun_span (span other : Span) (receiver previous : Value) (messages : List Node) :
    sendRun eval frame span receiver previous (messages.map some) =
      sendRun eval frame other receiver previous (messages.map some) := by
  induction messages generalizing receiver previous with
  | nil => rfl
  | cons message messages ih =>
      simp only [List.map_cons, sendRun, required_some, pure_bind, ih]

theorem runs_single {run : Node} (h : run.kind = .messages) (span : Span) (value : Value) :
    runs eval frame span value [some run] =
      sendRun eval frame run.span value value run.children >>= fun pair => pure pair.1 := by
  simp only [runs, requiredRun_messages h, pure_bind, cascades]

theorem expression_sending (receiver : Node) (messages : List Node) (span : Span) :
    expression eval (.sending receiver messages) frame =
      eval receiver frame >>= fun value =>
        if value.isNil then Eval.fail (.unresolvedPrimary receiver.describe) receiver.span
        else sendRun eval frame span value value (messages.map some) >>= fun pair =>
          pure pair.1 := by
  cases messages with
  | nil => exact expression_compose eval frame receiver []
  | cons message messages =>
      refine (expression_compose eval frame receiver _).trans ?_
      refine congrArg _ (funext fun value => ?_)
      rw [List.map_singleton, runs_single eval frame rfl]
      exact congrArg _ (congrArg (· >>= _) (sendRun_span eval frame _ span value value _))

/-- A cascade is its start, and the last message of the first run and the further runs sent to
the value of that. -/
theorem expression_cascade (receiver : Node) (before : List Node) (last : Node)
    (runs : List Node) :
    expression eval (.cascade receiver (before ++ [last]) runs) frame =
      expression eval (.sending receiver before) frame >>= fun value =>
        cascades eval frame (Node.cascade receiver (before ++ [last]) runs).span value value
          ((.compose .messages [last] :: runs).map some) := by
  have hkind : ∀ messages, (Node.compose .messages messages).kind = .messages := fun _ => rfl
  rw [expression_sending eval frame receiver before
    (Node.compose .messages (before ++ [last])).span, bind_assoc]
  refine (expression_compose eval frame receiver _).trans ?_
  refine congrArg _ (funext fun value => ?_)
  split
  · rfl
  · have hlast : ∀ (span : Span) (middle : Value),
        sendRun eval frame span middle middle ([last].map some) =
          send eval frame middle last >>= fun result => pure (result, middle) := by
      intro span middle
      simp [sendRun, required_some]
    have hrun : ∀ middle, sendRun eval frame (Node.compose .messages [last]).span middle middle
        (Node.compose .messages [last]).children = _ := hlast _
    simp only [List.map_cons, Evaluator.runs, requiredRun_messages (hkind _), pure_bind]
    change sendRun eval frame _ value value ((before ++ [last]).map some) >>= _ = _
    simp only [sendRun_append eval frame _ value value before (by simp : [last] ≠ []), hlast,
      bind_assoc, pure_bind, cascades, requiredRun_messages (hkind _), hrun]
    rfl

end Evaluator

/-! ### A name in a root frame -/

/-- A root frame binds a name to a value. -/
def Heap.Binds (heap : Heap) (frame : FrameId) (name : String) (value : Value) : Prop :=
  ∃ found, heap.frame? frame = some found ∧ found.parent = none ∧
    found.bindings.lookup name = some value

namespace Heap

variable {heap after : Heap} {frame : FrameId} {name : String} {value : Value}

theorem isRoot_iff :
    heap.isRoot frame = true ↔ ∃ found, heap.frame? frame = some found ∧ found.parent = none := by
  cases hf : heap.frame? frame <;> simp [isRoot, hf]

theorem Binds.get? (h : heap.Binds frame name value) : heap.get? frame name = some value := by
  obtain ⟨found, hf, -, hl⟩ := h
  have hdefines : found.defines name = true := by simp [Frame.defines, hl]
  have hnearest : heap.nearest? frame name = some frame := by
    simp [nearest?, nearestUpTo, hf, hdefines]
  simp [Heap.get?, hnearest, bindings, hf, hl]

theorem Binds.isRoot (h : heap.Binds frame name value) : heap.isRoot frame = true := by
  obtain ⟨found, hf, hp, -⟩ := h
  exact isRoot_iff.mpr ⟨found, hf, hp⟩

theorem Binds.keeps {hidden : String → Bool} (h : heap.Binds frame name value)
    (hk : heap.Keeps hidden after) (hn : hidden name = true) : after.Binds frame name value := by
  obtain ⟨found, hf, hp, hl⟩ := h
  obtain ⟨kept, hkept, hparent, hlookup⟩ := hk.old frame found hf
  exact ⟨kept, hkept, hparent.trans hp, (hlookup name hn).trans hl⟩

theorem isRoot_keeps {hidden : String → Bool} (h : heap.isRoot frame = true)
    (hk : heap.Keeps hidden after) : after.isRoot frame = true := by
  obtain ⟨found, hf, hp⟩ := isRoot_iff.mp h
  obtain ⟨kept, hkept, hparent, -⟩ := hk.old frame found hf
  exact isRoot_iff.mpr ⟨kept, hkept, hparent.trans hp⟩

variable (h : heap.isRoot frame = true) (name : String) (value : Value)

include h

theorem set_of_isRoot : (heap.set frame name value).2 = heap.init frame name value := by
  obtain ⟨found, hf, hp⟩ := isRoot_iff.mp h
  by_cases hd : found.defines name = true <;> simp [set, nearest?, nearestUpTo, hf, hp, hd]

theorem binds_init : (heap.init frame name value).Binds frame name value := by
  obtain ⟨found, hf, hp⟩ := isRoot_iff.mp h
  refine ⟨{ found with bindings := found.bindings.bind name value }, ?_, hp, ?_⟩
  · rw [frame?_init_self, hf]
    rfl
  · exact Bindings.lookup_bind_self name value found.bindings

end Heap

/-! ### Statements that use the name -/

open Evaluator

section

variable {frame : FrameId} {name : String} {value : Value} {machine : Machine}

theorem evalUpTo_expression {node : Node} (h : node.kind = .expression) (depth : Nat) :
    evalUpTo (depth + 1) node frame = expression (evalUpTo depth) node frame := by
  simp only [evalUpTo_succ, step, h]

theorem evalUpTo_nameToken (h : machine.heap.Binds frame name value) (depth : Nat) :
    evalUpTo (depth + 1) (.nameToken name) frame machine = .ok value machine := by
  have hlookup : (Eval.lookup frame name : Eval (Option Value)) machine =
      .ok (some value) machine :=
    congrArg (fun found => EStateM.Result.ok found machine) h.get?
  change (reference (.nameToken name) frame : Eval Value) machine = _
  exact bind_of_ok hlookup

theorem evalUpTo_sendingTo (h : machine.heap.Binds frame name value) (hv : value.isNil = false)
    {run : Node} (hr : run.kind = .messages) (depth : Nat) :
    evalUpTo (depth + 2) (.sendingTo name run) frame machine =
      (sendRun (evalUpTo (depth + 1)) frame run.span value value run.children >>=
        fun pair => pure pair.1) machine := by
  rw [evalUpTo_expression rfl, Node.sendingTo, expression_compose]
  rw [bind_of_ok (evalUpTo_nameToken h depth), if_neg (by simp [hv]), List.map_singleton,
    runs_single _ _ hr]

/-- As long as the name is not assigned to, runs that are sent to it are sent to its value. -/
theorem statements_sendingTo {view : View} (hn : view.hidden name = true)
    (hm : machine.heap.Clear view.hidden) (h : machine.heap.Binds frame name value)
    (hv : value.isNil = false) (ha : value.Avoids view.hidden) {runs : List Node}
    (hr : ∀ run ∈ runs, run.kind = .messages ∧ run.Avoids view.hidden) (depth : Nat) (span : Span)
    (last : Value) :
    statements (evalUpTo (depth + 2)) frame last ((runs.map (Node.sendingTo name)).map some)
        machine =
      cascades (evalUpTo (depth + 1)) frame span value last (runs.map some) machine := by
  induction runs generalizing last machine with
  | nil => rfl
  | cons run runs ih =>
      obtain ⟨⟨hkind, havoids⟩, hothers⟩ := List.forall_mem_cons.mp hr
      have hstep := evalUpTo_sendingTo h hv hkind depth
      have hend := (runMessages_seen view (depth + 1) frame havoids ha machine hm).2
      rw [cascades_cons _ _ hkind]
      simp only [List.map_cons, statements]
      cases hs : sendRun (evalUpTo (depth + 1)) frame run.span value value run.children machine with
      | error halt behind =>
          rw [bind_of_error hs] at hstep
          rw [bind_of_error hstep, bind_of_error hs]
      | ok pair behind =>
          rw [bind_of_ok hs] at hstep
          rw [bind_of_ok hstep, bind_of_ok hs]
          rw [hs] at hend
          obtain ⟨-, hbehind, hkeeps⟩ := hend
          exact ih hbehind (h.keeps hkeeps hn) hothers pair.1

theorem evalUpTo_naming {start : Node} {behind : Machine} {depth : Nat}
    (h : evalUpTo depth start frame machine = .ok value behind)
    (hroot : behind.heap.isRoot frame = true) :
    evalUpTo (depth + 1) (.naming name start) frame machine =
      .ok value { behind with heap := behind.heap.init frame name value } := by
  have hstore : ∀ span, behind.store frame name span value =
      { behind with heap := behind.heap.init frame name value } := by
    intro span
    simp [Machine.store, behind.heap.set_of_isRoot hroot, (Heap.binds_init hroot name value).isRoot]
  change assignment (evalUpTo depth) (.naming name start) frame machine = _
  unfold assignment
  change (evalUpTo depth start frame >>= _) machine = _
  rw [bind_of_ok h, ← hstore]
  exact bind_of_ok (Eval.store_apply frame name _ value behind)

theorem evalUpTo_naming_error {start : Node} {halt : Halt} {behind : Machine} {depth : Nat}
    (h : evalUpTo depth start frame machine = .error halt behind) :
    evalUpTo (depth + 1) (.naming name start) frame machine = .error halt behind := by
  change assignment (evalUpTo depth) (.naming name start) frame machine = _
  unfold assignment
  change (evalUpTo depth start frame >>= _) machine = _
  exact bind_of_error h

/-- What the statements come to, seen without the name, the cascade comes to as well. -/
theorem evalUpTo_unfolding {view : View} (hn : view.hidden name = true)
    (hm : machine.heap.Clear view.hidden) (hroot : machine.heap.isRoot frame = true) {start : Node}
    (hs : start.Avoids view.hidden) {depth : Nat}
    (hnil : ∀ behind, evalUpTo (depth + 1) start frame machine ≠ .ok .nil behind)
    {runs : List Node} (hr : ∀ run ∈ runs, run.kind = .messages ∧ run.Avoids view.hidden)
    (span : Span) :
    view.result view.value (evalUpTo (depth + 3) (.unfolding name start runs) frame machine) =
      view.result view.value
        ((evalUpTo (depth + 1) start frame >>= fun value =>
          cascades (evalUpTo (depth + 1)) frame span value value (runs.map some)) machine) := by
  have hslots : SlotsAvoid view.hidden (runs.map some) := by
    intro run hrun
    obtain ⟨found, hfound, heq⟩ := List.mem_map.mp hrun
    exact Option.some.inj heq ▸ (hr found hfound).2
  have hend := (evalUpTo_seen view (depth + 1) hs frame machine hm).2
  change view.result view.value ((evalUpTo (depth + 2) (.naming name start) frame >>= fun value =>
    statements (evalUpTo (depth + 2)) frame value ((runs.map (Node.sendingTo name)).map some))
      machine) = _
  cases hstart : evalUpTo (depth + 1) start frame machine with
  | error halt behind => rw [bind_of_error (evalUpTo_naming_error hstart), bind_of_error hstart]
  | ok value behind =>
      rw [hstart] at hend
      obtain ⟨havoids, hbehind, hkeeps⟩ := hend
      have hroot' := Heap.isRoot_keeps hroot hkeeps
      have hvalue : value.isNil = false := by
        cases value with
        | nil => exact absurd hstart (hnil behind)
        | string | number | block => rfl
      let named : Machine := { behind with heap := behind.heap.init frame name value }
      have hnamed : named.heap.Clear view.hidden := hbehind.init_of_hidden hn frame value
      -- The name does not show, so sending the runs cannot tell the machines apart.
      have hview : view.machine named = view.machine behind := by
        simp only [View.machine, named, view.heap_init_of_hidden hn]
      have hseen := cascades_seen view (depth + 1) frame hslots span havoids havoids
      rw [bind_of_ok (evalUpTo_naming hstart hroot'), bind_of_ok hstart,
        statements_sendingTo hn hnamed (Heap.binds_init hroot' name value) hvalue havoids hr depth
          span value]
      exact (hseen named hnamed).1.symm.trans (hview ▸ (hseen behind hbehind).1)

/-! ### Cascades and statements -/

theorem settled_result {α β : Type} {view : View} {see : α → β}
    {result : EStateM.Result Halt Machine α} :
    Settled (view.result see result) ↔ Settled result := by
  cases result with
  | ok value behind => exact iff_of_true (settled_ok _ _) (settled_ok _ _)
  | error halt behind => cases halt <;> simp [View.result, View.halt, Settled]

section

variable (frame : FrameId) (receiver : Node) (before : List Node) (last : Node) (runs : List Node)

/-- A cascade whose runs may nest one level deeper than its start. Its depth lies between those
of the cascade and of the statements. -/
def deepened (depth : Nat) : Eval Value :=
  evalUpTo (depth + 1) (.sending receiver before) frame >>= fun value =>
    cascades (evalUpTo (depth + 1)) frame (Node.cascade receiver (before ++ [last]) runs).span
      value value ((.compose .messages [last] :: runs).map some)

theorem evalUpTo_cascade (depth : Nat) :
    evalUpTo (depth + 1) (.cascade receiver (before ++ [last]) runs) frame =
      evalUpTo (depth + 1) (.sending receiver before) frame >>= fun value =>
        cascades (evalUpTo depth) frame (Node.cascade receiver (before ++ [last]) runs).span
          value value ((.compose .messages [last] :: runs).map some) := by
  have hstart : (Node.sending receiver before).kind = .expression := by cases before <;> rfl
  rw [evalUpTo_expression rfl, expression_cascade, evalUpTo_expression hstart]

theorem cascade_below_deepened (depth : Nat) :
    Below (evalUpTo (depth + 1) (.cascade receiver (before ++ [last]) runs) frame)
      (deepened frame receiver before last runs depth) := by
  rw [evalUpTo_cascade]
  exact .bind (.refl _) fun value =>
    cascades_below (evalUpTo_below_succ depth) frame _ value value _

theorem deepened_below_cascade (depth : Nat) :
    Below (deepened frame receiver before last runs depth)
      (evalUpTo (depth + 2) (.cascade receiver (before ++ [last]) runs) frame) := by
  rw [evalUpTo_cascade]
  exact .bind (evalUpTo_below_succ (depth + 1) _ frame) fun value => .refl _

end

/-- In a root frame, a cascade and the statements that name its receiver come to an end together,
and to the same as far as anything but the name is concerned. -/
theorem cascade_agrees {view : View} (hn : view.hidden name = true)
    (hm : machine.Avoids view.hidden) (hroot : machine.heap.isRoot frame = true) {receiver : Node}
    {before : List Node} {last : Node} {runs : List Node}
    (hs : (Node.sending receiver before).Avoids view.hidden)
    (hnil : ∀ depth behind,
      evalUpTo depth (.sending receiver before) frame machine ≠ .ok .nil behind)
    (hr : ∀ run ∈ .compose .messages [last] :: runs,
      run.kind = .messages ∧ run.Avoids view.hidden) {tree statements : Node}
    (ht : tree = .cascade receiver (before ++ [last]) runs)
    (hu : statements =
      .unfolding name (.sending receiver before) (.compose .messages [last] :: runs)) :
    ((∃ depth, Settled (evalUpTo depth tree frame machine)) ↔
      ∃ depth, Settled (evalUpTo depth statements frame machine)) ∧
    ∀ depth depth', Settled (evalUpTo depth tree frame machine) →
      Settled (evalUpTo depth' statements frame machine) →
      view.result view.value (evalUpTo depth tree frame machine) =
        view.result view.value (evalUpTo depth' statements frame machine) := by
  have hview : ∀ depth,
      view.result view.value (evalUpTo (depth + 3) statements frame machine) =
        view.result view.value (deepened frame receiver before last runs depth machine) :=
    fun depth => hu ▸ evalUpTo_unfolding hn (.of_holding hm) hroot hs (hnil (depth + 1)) hr _
  have hdeepened : ∀ depth, Settled (deepened frame receiver before last runs depth machine) ↔
      Settled (evalUpTo (depth + 3) statements frame machine) := by
    intro depth
    rw [← @settled_result _ _ view view.value, ← hview, settled_result]
  have hcascade : ∀ depth, Settled (evalUpTo depth tree frame machine) →
      deepened frame receiver before last runs depth machine =
        evalUpTo depth tree frame machine := by
    intro depth h
    have hstep := evalUpTo_below_succ depth tree frame machine h
    rw [← hstep] at h ⊢
    subst ht
    exact cascade_below_deepened frame receiver before last runs depth machine h
  refine ⟨⟨?_, ?_⟩, ?_⟩
  · rintro ⟨depth, h⟩
    exact ⟨depth + 3, (hdeepened depth).mp (hcascade depth h ▸ h)⟩
  · rintro ⟨depth, h⟩
    have hstep := evalUpTo_below (Nat.le_add_right depth 3) statements frame machine h
    rw [← hstep] at h
    have hsettled := (hdeepened depth).mpr h
    have hlast := deepened_below_cascade frame receiver before last runs depth machine hsettled
    exact ⟨depth + 2, ht ▸ hlast ▸ hsettled⟩
  · intro depth depth' h h'
    have hmax := evalUpTo_below (Nat.le_max_left depth depth') tree frame machine h
    have hmax' := evalUpTo_below (Nat.le_add_right_of_le (k := 3) (Nat.le_max_right depth depth'))
      statements frame machine h'
    rw [← hmax] at h ⊢
    rw [← hmax', hview, hcascade _ h]

end

end MiniSmalltalk
