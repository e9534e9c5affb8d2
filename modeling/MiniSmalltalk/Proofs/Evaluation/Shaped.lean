import MiniSmalltalk.Proofs.Evaluation.Shape
import MiniSmalltalk.Proofs.Object.Holding

/-! # Shaped values and frames

Blocks keep the trees they were made from, and a block may be called long after its source has
been read. The invariant is that the body of every block in every frame has a shape that the
evaluator knows. -/

namespace MiniSmalltalk

/-- The body of a block can be evaluated. -/
def Value.Shaped : Value → Prop
  | .block literal => ∀ body ∈ literal.body, Shape .evaluated body
  | _ => True

def Bindings.Shaped (bindings : Bindings) : Prop := ∀ entry ∈ bindings, entry.2.Shaped

def Heap.Shaped (heap : Heap) : Prop :=
  ∀ id frame, heap.frame? id = some frame → frame.bindings.Shaped

/-- Only shaped values can be looked up. -/
def Machine.Shaped (machine : Machine) : Prop := machine.heap.Shaped

namespace Heap

theorem Shaped.push {heap : Heap} (h : heap.Shaped) {frame : Frame}
    (hf : frame.bindings.Shaped) : (heap.push frame).Shaped :=
  Holding.push h hf

theorem Shaped.set {heap : Heap} (h : heap.Shaped) {value : Value} (hv : value.Shaped)
    (id : FrameId) (name : String) : (heap.set id name value).2.Shaped :=
  Holding.set h hv id name

theorem Shaped.get? {heap : Heap} (h : heap.Shaped) {id : FrameId} {name : String} {value : Value}
    (hg : heap.get? id name = some value) : value.Shaped :=
  Holding.get? h hg

end Heap

theorem Machine.shaped_initial : Machine.initial.Shaped := holding_initial

end MiniSmalltalk
