import MiniSmalltalk.Proofs.Evaluation.Comparison
import MiniSmalltalk.Proofs.Evaluation.Shaped

/-! # Safety of evaluation

Every part of the evaluator keeps the machine shaped and never meets a node it does not know.
-/

namespace MiniSmalltalk

/-- An evaluation has stopped, but not for a node that it does not know. -/
def Halt.Known : Halt → Prop
  | .fault found => ∀ kind, found.cause ≠ .unexpectedNode kind
  | .tooDeep => True

/-- Shaped machines, blocks and trees. No node is met where another one is expected. -/
def Sphere.shaped : Sphere where
  holds := Machine.Shaped
  later _ _ := True
  frame _ _ := True
  reads _ := True
  stray _ := False
  block _ literal := (Value.block literal).Shaped
  tree := Shape

namespace Sphere

theorem shaped_fits (machine : Machine) : shaped.Fits machine = Value.Shaped := by
  funext value
  cases value <;> rfl

theorem shaped_slots {role : Role} {parts : List Node} (h : ∀ part ∈ parts, Shape role part) :
    shaped.terms.Slots role (parts.map some) (parts.map some) :=
  slots_self (by simp) fun node hm => h node (by simpa using hm)

theorem shaped_slot {node : Node} (h : Shape .evaluated node) :
    shaped.terms.Slot (shaped.terms.tree .evaluated) (some node) (some node) :=
  .held ⟨rfl, h⟩

/-- The blocks that a shaped literal gives are shaped. -/
theorem shaped_ofNode {node : Node} {parts : List Node} (hc : node.children = parts.map some)
    (hp : ∀ part ∈ parts, Block.isBody part = true → Shape .evaluated part) (frame : FrameId)
    (identity : Nat) : (Value.block (.ofNode node frame identity)).Shaped := by
  intro body hb
  have hfound : parts.reverse.find? Block.isBody = some body := by
    simpa [Block.ofNode, hc, List.filterMap_map] using hb
  have hmem : body ∈ parts := List.mem_reverse.mp (List.mem_of_find?_eq_some hfound)
  exact hp body hmem (List.find?_some hfound)

/-- The evaluator knows the parts of a shaped node. -/
theorem shaped_opens {role : Role} {node : Node} (h : Shape role node) :
    shaped.terms.Opens role node node := by
  refine ⟨⟨rfl, rfl, rfl⟩, ?_⟩
  cases h with
  | atom hk => rcases hk with hk | hk | hk <;> simp [Terms.Parts, hk, terms, shaped]
  | answer hk hc hi =>
      simp only [Terms.Parts, hk, Node.child?, hc]
      exact shaped_slot hi
  | statements hk hc hp =>
      simp only [Terms.Parts, hk, hc]
      exact shaped_slots hp
  | assignment hk hc hs =>
      simp only [Terms.Parts, hk, Node.child?, hc]
      exact ⟨.held ⟨⟨rfl, rfl, rfl⟩, trivial⟩, shaped_slot hs⟩
  | expression hk hc hr hn =>
      simp only [Terms.Parts, hk, Node.child?, hc]
      exact ⟨shaped_slot hr, shaped_slots hn⟩
  | block hk hc hp =>
      simp only [Terms.Parts, hk]
      exact fun _ frame identity _ => ⟨rfl, shaped_ofNode hc hp frame identity⟩
  | run hk hc hp =>
      simp only [Terms.Parts, hk, hc, if_true]
      exact shaped_slots hp
  | message hm hc hp =>
      simp only [Terms.Parts, hm, hc, if_true]
      exact shaped_slots hp

theorem shaped_lawful : (Comparison.within shaped Halt.Known).Lawful where
  frame_after _ _ := trivial
  block_after _ hb := hb
  opens := by
    rintro role node _ ⟨rfl, h⟩
    exact shaped_opens h
  body := by
    rintro machine _ block ⟨rfl, h⟩
    exact ⟨rfl, tree_self h⟩
  later_refl _ := trivial
  later_trans _ _ := trivial
  cut_later hcut _ := hcut
  halts h _ kind hc := h kind hc
  read := by
    intro machine id name hm _ _
    refine found_self fun value hg => ?_
    rw [shaped_fits]
    exact hm.get? hg
  store := by
    intro machine id name value value' hm _ _ hv span
    obtain ⟨rfl, hshaped⟩ := fits_iff.mp hv
    rw [shaped_fits] at hshaped
    exact ⟨rfl, hm.set hshaped id name, trivial⟩
  enter := by
    rintro machine _ block _ arguments hm ⟨rfl, -⟩ ha _
    obtain ⟨rfl, hshaped⟩ := forall₂_fits_iff.mp ha
    rw [shaped_fits] at hshaped
    have hbindings : (Message.callBindings block arguments).Holding Value.Shaped :=
      .callBindings block trivial hshaped
    exact ⟨rfl, ⟨hm.push hbindings, trivial⟩, trivial⟩
  count hm := ⟨rfl, rfl, hm, trivial⟩
  display hm _ := ⟨rfl, hm, trivial⟩

end Sphere

/-- From a shaped machine, evaluations of shaped trees leave one, give shaped values and never meet
an unknown node. -/
theorem evaluate_safe (depth : Nat) {tree : Option Node}
    (ht : ∀ node ∈ tree, Shape .evaluated node) (frame : FrameId) :
    Eval.Triple Machine.Shaped (evaluate depth tree (some frame))
      (fun value machine => machine.Shaped ∧ value.Shaped)
      fun halt machine => machine.Shaped ∧ halt.Known := by
  intro machine hm
  have law := Sphere.shaped_lawful
  have hframe : (Comparison.within .shaped Halt.Known).Matches
      (fun _ id id' => id' = id ∧ True) machine (Eval.frameOrNew (some frame))
      (Eval.frameOrNew (some frame)) := law.pure hm ⟨rfl, trivial⟩
  have hend := Comparison.within_fits_iff.mp
    (law.evaluate trivial depth (Sphere.tree_self ht) hframe)
  simp only [Sphere.shaped_fits] at hend
  cases hr : evaluate depth tree (some frame) machine with
  | ok value behind =>
      rw [hr] at hend
      exact ⟨hend.1.1, hend.2⟩
  | error halt behind =>
      rw [hr] at hend
      exact ⟨hend.1.1, hend.2⟩

end MiniSmalltalk
