import MiniSmalltalk.Proofs.Evaluation.Naturality
import MiniSmalltalk.Proofs.Object.Resolution

/-! # Names that do not occur

What a frame binds a name to has no influence on an evaluation in which the name does not occur,
neither in the tree nor in a block of the heap. The evaluation does not touch the binding either. -/

namespace MiniSmalltalk

/-! ### Where a name does not occur -/

/-- A name is the text of no node of a tree. -/
def Node.Lacks (name : String) (node : Node) : Prop :=
  node.Everywhere fun node => node.textOrEmpty ≠ name

/-- A name is not declared by a block, and it is the text of no node of the body. -/
structure Block.Lacks (name : String) (block : Block) : Prop where
  arguments : name ∉ block.arguments
  temporaries : name ∉ block.temporaries
  body : ∀ node ∈ block.body, node.Lacks name

def Value.Lacks (name : String) : Value → Prop
  | .block literal => literal.Lacks name
  | _ => True

/-- The names that a node uses or declares are its own text or those of its children. -/
theorem Node.mem_names {node : Node} {name : String} (h : name ∈ node.names) :
    node.textOrEmpty = name ∨ ∃ child, some child ∈ node.children ∧ child.textOrEmpty = name := by
  have hdeclared : name ∈ Block.names node →
      ∃ child, some child ∈ node.children ∧ child.textOrEmpty = name := by
    intro hm
    obtain ⟨slot, hslot, hname⟩ := List.mem_filterMap.mp hm
    obtain ⟨child, rfl, rfl⟩ := Option.map_eq_some_iff.mp hname
    exact ⟨child, hslot, rfl⟩
  unfold Node.names at h
  split at h
  · exact .inl (List.mem_singleton.mp h).symm
  · obtain ⟨child, hchild, rfl⟩ : ∃ child, node.child? 0 = some child ∧
        child.textOrEmpty = name := by simpa using h
    exact .inr ⟨child, List.mem_of_getElem? (Option.join_eq_some_iff.mp hchild), rfl⟩
  · exact .inr (hdeclared h)
  · exact .inr (hdeclared h)
  · cases h

theorem Node.Lacks.avoids {name : String} {node : Node} (h : node.Lacks name) :
    node.Avoids (· == name) := by
  induction h with
  | @node node hhere hinside ih =>
      refine .node ?_ ih
      intro other hm
      rw [beq_eq_false_iff_ne]
      rcases Node.mem_names hm with rfl | ⟨child, hchild, rfl⟩
      · exact hhere
      · exact (hinside child hchild).here

theorem Value.Lacks.avoids {name : String} {value : Value} (h : value.Lacks name) :
    value.Avoids (· == name) := by
  have hdeclared : ∀ {names : List String}, name ∉ names →
      ∀ other ∈ names, (other == name) = false := by
    intro names hn other hm
    rw [beq_eq_false_iff_ne]
    rintro rfl
    exact hn hm
  cases value with
  | nil | string | number => trivial
  | block literal =>
      exact ⟨hdeclared h.arguments, hdeclared h.temporaries, fun node hb => (h.body node hb).avoids⟩

/-! ### Machines that differ in one binding -/

/-- The second machine is like the first one, except that a frame binds a name to a given
value. -/
structure Machine.Altered (holder : FrameId) (name : String) (value : Value)
    (first second : Machine) : Prop where
  blocks : second.blocks = first.blocks
  transcript : second.transcript = first.transcript
  notices : second.notices = first.notices
  frames : ∀ id, (second.heap.frame? id).map Frame.parent = (first.heap.frame? id).map Frame.parent
  others : ∀ id other, (id, other) ≠ (holder, name) →
    (second.heap.bindings id).lookup other = (first.heap.bindings id).lookup other
  given : (second.heap.bindings holder).lookup name = some value

/-- Two evaluations have come to the same value or have stopped for the same reason, and a machine
is like the other except for one binding. -/
inductive Eval.Altered (holder : FrameId) (name : String) (value : Value) :
    EStateM.Result Halt Machine Value → EStateM.Result Halt Machine Value → Prop where
  | ok {result : Value} {first second : Machine} : first.Altered holder name value second →
      Altered holder name value (.ok result first) (.ok result second)
  | error {halt : Halt} {first second : Machine} : first.Altered holder name value second →
      Altered holder name value (.error halt first) (.error halt second)

namespace Heap

/-- What is bound to a hidden name is the same from first to last. -/
theorem Keeps.lookup {hidden : String → Bool} {before after : Heap} (h : before.Keeps hidden after)
    {name : String} (hn : hidden name = true) (id : FrameId) :
    (after.bindings id).lookup name = (before.bindings id).lookup name := by
  cases hbefore : before.frame? id with
  | some frame =>
      obtain ⟨kept, hkept, -, hlookup⟩ := h.old id frame hbefore
      rw [bindings_of_frame? hkept, bindings_of_frame? hbefore]
      exact hlookup name hn
  | none =>
      have hempty : before.bindings id = [] := by simp [bindings, hbefore]
      rw [hempty]
      cases hafter : after.frame? id with
      | none => simp [bindings, hafter]
      | some frame =>
          rw [bindings_of_frame? hafter]
          exact h.new id frame hbefore hafter name hn

end Heap

namespace View

/-- The view that shows everything but one name. -/
def unnamed (name : String) : View := .without (· == name)

variable (name : String)

theorem unnamed_hidden : (unnamed name).hidden name = true := beq_self_eq_true name

theorem unnamed_value : (unnamed name).value = id := funext (without_value _)

theorem unnamed_notice : (unnamed name).notice = id := by
  funext notice
  cases notice <;> rfl

theorem unnamed_halt : (unnamed name).halt = id := by
  funext halt
  cases halt <;> rfl

/-- A machine looks the same with another value for the name. -/
theorem unnamed_machine_init (machine : Machine) (holder : FrameId) (value : Value) :
    (unnamed name).machine { machine with heap := machine.heap.init holder name value } =
      (unnamed name).machine machine := by
  simp only [View.machine, View.heap_init_of_hidden _ (unnamed_hidden name)]

end View

section

variable {name : String} {holder : FrameId} {value : Value} {machine : Machine}
  (hh : holder < machine.heap.size)

include hh

/-- Machines that look the same without a name differ in one binding of it, if they come from
machines that do. -/
theorem Machine.altered_of_view {first second : Machine}
    (hview : (View.unnamed name).machine first = (View.unnamed name).machine second)
    (hfirst : machine.heap.Keeps (· == name) first.heap)
    (hsecond : (machine.heap.init holder name value).Keeps (· == name) second.heap) :
    first.Altered holder name value second := by
  have hname : (name == name) = true := beq_self_eq_true name
  obtain ⟨hheap, hblocks, htranscript, hnotices⟩ := Machine.mk.inj hview
  rw [View.unnamed_notice, List.map_id, List.map_id] at hnotices
  refine ⟨hblocks.symm, htranscript.symm, hnotices.symm, ?_, ?_, ?_⟩
  · intro id
    have hparent : Frame.parent ∘ (View.unnamed name).frame = Frame.parent := rfl
    have hframe := congrArg (fun heap => (heap.frame? id).map Frame.parent) hheap
    simpa [View.frame?_heap, hparent] using hframe.symm
  · intro id other hne
    by_cases hother : other = name
    · subst hother
      have hid : id ≠ holder := fun heq => hne (by rw [heq])
      have hbindings : (machine.heap.init holder other value).bindings id =
          machine.heap.bindings id := by
        rw [Heap.bindings, Heap.bindings, Heap.frame?_init_of_ne hid]
      rw [hfirst.lookup hname, hsecond.lookup hname, hbindings]
    · have hshown : (View.unnamed name).hidden other = false := beq_eq_false_iff_ne.mpr hother
      have hlookup := congrArg (fun heap => (heap.bindings id).lookup other) hheap
      simpa [View.bindings_heap, View.lookup_bindings _ hshown, View.unnamed_value]
        using hlookup.symm
  · rw [hsecond.lookup hname, Heap.lookup_init_self hh]

/-- The same for what evaluations have come to. -/
theorem Eval.altered_of_view {first second : EStateM.Result Halt Machine Value}
    (hview : (View.unnamed name).result (View.unnamed name).value first =
      (View.unnamed name).result (View.unnamed name).value second)
    (hfirst : Ends (fun _ behind => machine.heap.Keeps (· == name) behind.heap)
      (fun _ behind => machine.heap.Keeps (· == name) behind.heap) first)
    (hsecond : Ends
      (fun _ behind => (machine.heap.init holder name value).Keeps (· == name) behind.heap)
      (fun _ behind => (machine.heap.init holder name value).Keeps (· == name) behind.heap)
      second) :
    Eval.Altered holder name value first second := by
  simp only [View.result, View.unnamed_value, View.unnamed_halt, id] at hview
  cases first with
  | ok result behind =>
      cases second with
      | error halt behind' => cases hview
      | ok result' behind' =>
          obtain ⟨rfl, hmachine⟩ := EStateM.Result.ok.inj hview
          exact .ok (Machine.altered_of_view hh hmachine hfirst hsecond)
  | error halt behind =>
      cases second with
      | ok result' behind' => cases hview
      | error halt' behind' =>
          obtain ⟨rfl, hmachine⟩ := EStateM.Result.error.inj hview
          exact .error (Machine.altered_of_view hh hmachine hfirst hsecond)

end

/-! ### Evaluations that differ in one binding -/

open Eval in
/-- An evaluation in which a name does not occur keeps what is bound to it. -/
theorem evaluate_keeps {name : String} {machine : Machine} (hm : machine.heap.Clear (· == name))
    {tree : Option Node} (ht : ∀ node ∈ tree, node.Lacks name) (depth : Nat)
    (frame : Option FrameId) :
    Ends (fun _ behind => machine.heap.Keeps (· == name) behind.heap)
      (fun _ behind => machine.heap.Keeps (· == name) behind.heap)
      (evaluate depth tree frame machine) := by
  obtain ⟨-, hend⟩ := @evaluate_seen (.unnamed name) depth tree (fun node hn => (ht node hn).avoids)
    frame machine hm
  cases hr : evaluate depth tree frame machine with
  | ok result behind =>
      rw [hr] at hend
      exact hend.2.2
  | error halt behind =>
      rw [hr] at hend
      exact hend.2

/-- Binding a name that does not occur changes neither what an evaluation comes to nor any other
binding, and the evaluation leaves the name bound as it was. -/
theorem unmentioned_binding_irrelevant {machine : Machine} {name : String}
    (hm : machine.heap.Holding (Value.Lacks name)) {tree : Option Node}
    (ht : ∀ node ∈ tree, node.Lacks name) {holder : FrameId} (hh : holder < machine.heap.size)
    (value : Value) (depth : Nat) (frame : Option FrameId) :
    Eval.Altered holder name value (evaluate depth tree frame machine)
      (evaluate depth tree frame
        { machine with heap := machine.heap.init holder name value }) := by
  have hclear : machine.heap.Clear (· == name) :=
    .of_holding fun id found hf entry he => (hm id found hf entry he).avoids
  have hclear' := hclear.init_of_hidden (View.unnamed_hidden name) holder value
  have hseen := @evaluate_seen (.unnamed name) depth tree (fun node hn => (ht node hn).avoids) frame
  -- Both machines look the same, so the evaluations do as well.
  have hview := (hseen { machine with heap := machine.heap.init holder name value } hclear').1
  rw [View.unnamed_machine_init, (hseen machine hclear).1] at hview
  exact Eval.altered_of_view hh hview (evaluate_keeps hclear ht depth frame)
    (evaluate_keeps hclear' ht depth frame)

/-- The name may be bound in a parent of the frame, where an evaluation would find it, and it may be
bound to a block that uses it. -/
theorem unmentioned_binding_irrelevant_in_parent :
    let literal : Block := ⟨["a"], [], some (.leaf .identifier "a" .origin), 0, .origin, 0⟩
    let user : Block := ⟨[], [], some (.leaf .identifier "x" .origin), 0, .origin, 1⟩
    let machine := (Machine.initial.pushFrame (some 0) [("b", .block literal)]).2
    let target : Node := .leaf .identifier "y" .origin
    let source : Node := .leaf .identifier "b" .origin
    let tree : Node := ⟨.assignment, none, [some target, some source], .origin⟩
    (machine.heap.Holding (Value.Lacks "x") ∧ tree.Lacks "x" ∧ 0 < machine.heap.size) ∧
      Eval.Altered 0 "x" (.block user) (evaluate 10 (some tree) (some 1) machine)
        (evaluate 10 (some tree) (some 1)
          { machine with heap := machine.heap.init 0 "x" (.block user) }) := by
  intro literal user machine target source tree
  have hleaf : ∀ text, text ≠ "x" → (Node.leaf .identifier text .origin).Lacks "x" :=
    fun text h => .leaf rfl h
  have hliteral : literal.Lacks "x" := by
    refine ⟨by decide, by decide, ?_⟩
    rintro body ⟨⟩
    exact hleaf "a" (by decide)
  have hheap : machine.heap.Holding (Value.Lacks "x") := by
    refine Machine.holding_initial.push ?_
    intro entry hm
    obtain rfl := List.mem_singleton.mp hm
    exact hliteral
  have htree : tree.Lacks "x" := by
    refine .node (by decide) ?_
    intro child hm
    rcases List.mem_cons.mp hm with hm | hm
    · exact Option.some.inj hm ▸ hleaf "y" (by decide)
    · exact Option.some.inj (List.mem_singleton.mp hm) ▸ hleaf "b" (by decide)
  have hsize : 0 < machine.heap.size := by decide
  refine ⟨⟨hheap, htree, hsize⟩, ?_⟩
  exact unmentioned_binding_irrelevant hheap (by rintro node ⟨⟩; exact htree) hsize (.block user) 10
    (some 1)

end MiniSmalltalk
