import MiniSmalltalk.Proofs.Evaluation.Comparison
import MiniSmalltalk.Proofs.Evaluation.View

/-! # Evaluation through views

Evaluating what a view shows of a tree on what it shows of a machine comes to what the view shows
of the evaluation itself: positions have no influence, and neither have names that do not occur.
-/

namespace MiniSmalltalk

/-! ### Views as comparisons -/

def Evaluator.SlotsAvoid (hidden : String → Bool) (slots : List (Option Node)) : Prop :=
  ∀ node, some node ∈ slots → node.Avoids hidden

namespace View

variable (view : View)

/-- Everything is compared with what the view shows of it. Hidden names occur nowhere, and what is
bound to them is kept. -/
def comparison : Comparison where
  holds machine := machine.heap.Clear view.hidden
  later machine behind := machine.heap.Keeps view.hidden behind.heap
  frame _ _ := True
  reads name := view.hidden name = false
  assigns name := view.hidden name = false
  stray _ := True
  place := view.place
  block _ block block' := block' = view.block block ∧ block.Avoids view.hidden
  tree _ node node' := node' = view.node node ∧ node.Avoids view.hidden
  change := view.machine
  halts _ := True
  cut _ _ := False

variable {view} {machine : Machine}

theorem fits_iff {value value' : Value} :
    view.comparison.Fits machine value value' ↔
      value' = view.value value ∧ value.Avoids view.hidden := by
  constructor
  · intro h
    cases h with
    | block hb => exact ⟨congrArg Value.block hb.1, hb.2⟩
    | _ => exact ⟨rfl, trivial⟩
  · rintro ⟨rfl, h⟩
    cases value with
    | nil => exact .nil
    | string text => exact .string text
    | number value => exact .number value
    | block block => exact .block ⟨rfl, h⟩

theorem forall₂_fits {values values' : List Value}
    (h : List.Forall₂ (view.comparison.Fits machine) values values') :
    values' = values.map view.value ∧ ∀ value ∈ values, value.Avoids view.hidden := by
  induction h with
  | nil => exact ⟨rfl, by simp⟩
  | cons hv _ ih =>
      obtain ⟨rfl, havoids⟩ := fits_iff.mp hv
      obtain ⟨rfl, hall⟩ := ih
      exact ⟨rfl, List.forall_mem_cons.mpr ⟨havoids, hall⟩⟩

theorem slot_node {stands : Node → Node → Prop} {slot : Option Node}
    (h : ∀ node ∈ slot, stands node (view.node node)) :
    view.comparison.Slot stands slot (slot.map view.node) := by
  cases slot with
  | none => exact .empty trivial
  | some node => exact .held (h node rfl)

theorem slots_node {role : Role} {slots : List (Option Node)}
    (h : Evaluator.SlotsAvoid view.hidden slots) :
    view.comparison.Slots role slots (slots.map (Option.map view.node)) := by
  refine List.forall₂_map_right_iff.mpr (List.forall₂_same.mpr fun slot hm => ?_)
  exact slot_node fun node hnode => ⟨rfl, h node (Option.mem_def.mp hnode ▸ hm)⟩

theorem head_node (node : Node) : view.comparison.Head node (view.node node) :=
  ⟨Node.relocate_kind _ node, Node.relocate_text _ node, Node.relocate_span _ node⟩

theorem opens_node {node : Node} (h : node.Avoids view.hidden) (role : Role) :
    view.comparison.Opens role node (view.node node) := by
  have hslots : ∀ role, view.comparison.Slots role node.children (view.node node).children := by
    intro role
    rw [View.node, Node.relocate_children]
    exact slots_node fun _ hm => h.inside hm
  have hslot : ∀ index, view.comparison.Slot (view.comparison.tree .evaluated) (node.child? index)
      ((view.node node).child? index) := by
    intro index
    rw [View.node, Node.relocate_child?]
    exact slot_node fun _ hc => ⟨rfl, h.child? hc⟩
  refine ⟨head_node node, ?_⟩
  cases role with
  | evaluated =>
      simp only [Terms.Parts]
      split
      · exact hslots _
      · refine ⟨hslot 0, ?_⟩
        rw [View.node, Node.relocate_children, ← List.map_drop]
        exact slots_node fun _ hm => h.inside (List.mem_of_mem_drop hm)
      · refine ⟨?_, hslot 1⟩
        rw [View.node, Node.relocate_child?]
        refine slot_node fun target ht => ⟨head_node target, h.here _ ?_⟩
        simp_all [Node.names]
      · exact hslot 0
      · exact h.here _ (by simp_all [Node.names])
      · trivial
      · trivial
      · intro _ frame identity _
        exact ⟨Block.ofNode_view view node frame identity, Block.ofNode_avoids h frame identity⟩
      · trivial
  | run => exact Terms.parts_run (fun _ => trivial) fun _ => hslots _
  | message => exact Terms.parts_message (fun _ => trivial) fun _ => hslots _

/-- A view shows what the single ways to touch a machine do. -/
theorem lawful (view : View) : view.comparison.Lawful where
  frame_after _ _ := trivial
  block_after _ hb := hb
  opens := by
    rintro role node _ ⟨rfl, h⟩
    exact opens_node h role
  body := by
    rintro machine block _ ⟨rfl, h⟩
    refine ⟨rfl, ?_⟩
    change Option.Rel _ block.body (block.body.map view.node)
    cases hb : block.body with
    | none => exact .none
    | some body => exact .some ⟨rfl, h.body body hb⟩
  later_refl machine := .refl machine.heap
  later_trans := .trans
  cut_later hcut _ := hcut
  halts _ _ := trivial
  read := by
    intro machine id name hm _ hname
    change Option.Rel _ _ ((view.heap machine.heap).get? id name)
    rw [view.get?_heap hname]
    cases hg : machine.heap.get? id name with
    | none => exact .none
    | some value => exact .some (fits_iff.mpr ⟨rfl, hm.get? hname hg⟩)
  store := by
    intro machine id name value value' hm _ hname hv span
    obtain ⟨rfl, havoids⟩ := fits_iff.mp hv
    refine ⟨?_, hm.set hname havoids id, .set hname _ _ _⟩
    simp only [comparison, Machine.store, View.machine, view.heap_set hname, isRoot_heap,
      apply_ite (List.map view.notice), List.map_append, List.map_cons, List.map_nil, View.notice]
  enter := by
    rintro machine block _ arguments arguments' hm ⟨rfl, hb⟩ ha hcount
    obtain ⟨rfl, havoids⟩ := forall₂_fits ha
    have hnames : ∀ name, view.hidden name = true →
        (Message.callBindings block arguments).lookup name = none := by
      intro name hn
      rw [← Option.not_isSome_iff_eq_none, Message.isSome_lookup_callBindings hcount]
      rintro (hm | hm)
      · simp [hb.temporaries name hm] at hn
      · simp [hb.arguments name hm] at hn
    have hbindings : (Message.callBindings block arguments).Holding (Value.Avoids view.hidden) :=
      .callBindings block trivial havoids
    refine ⟨?_, ⟨hm.push hbindings, .push _ hnames⟩, trivial⟩
    rw [← view.callBindings hb]
    simp [comparison, Machine.pushFrame, View.machine, view.heap_push, View.frame, View.block]
  count hm := ⟨rfl, rfl, hm, .refl _⟩
  display hm _ := ⟨rfl, hm, .refl _⟩

end View

/-! ### What a view shows of evaluations -/

namespace Eval

variable {α : Type} {view : View} {see : α → α} {fine : α → Prop}

/-- On machines without hidden names, `seen` does to a view what `action` does to the machine,
and `action` keeps hidden names out of its value and the machine. -/
def Seen (view : View) (see : α → α) (fine : α → Prop) (action seen : Eval α) : Prop :=
  ∀ machine : Machine, machine.heap.Clear view.hidden →
    seen (view.machine machine) = view.result see (action machine) ∧
    Ends (fun value behind => fine value ∧ behind.heap.Clear view.hidden ∧
        machine.heap.Keeps view.hidden behind.heap)
      (fun _ behind => behind.heap.Clear view.hidden ∧
        machine.heap.Keeps view.hidden behind.heap) (action machine)

theorem seen_of_matches (post : Machine → α → α → Prop) {action seen : Eval α}
    (hp : ∀ machine value value', post machine value value' → value' = see value ∧ fine value)
    (h : ∀ machine : Machine, machine.heap.Clear view.hidden →
      view.comparison.Matches post machine action seen) : Seen view see fine action seen := by
  intro machine hm
  have hmatch := h machine hm
  change view.comparison.Outcome _ machine (action machine) (seen (view.machine machine)) at hmatch
  generalize action machine = result, seen (view.machine machine) = result' at hmatch
  cases hmatch with
  | value ha hv =>
      obtain ⟨rfl, hfine⟩ := hp _ _ _ hv
      exact ⟨rfl, hfine, ha⟩
  | @halt halt behind ha _ => exact ⟨by cases halt <;> rfl, ha⟩
  | cutShort _ _ hcut => exact hcut.elim
  | cutBefore _ _ hcut => exact hcut.elim

theorem seen_of_fits {action seen : Eval Value}
    (h : ∀ machine : Machine, machine.heap.Clear view.hidden →
      view.comparison.Matches view.comparison.Fits machine action seen) :
    Seen view view.value (Value.Avoids view.hidden) action seen :=
  seen_of_matches view.comparison.Fits (fun _ _ _ => View.fits_iff.mp) h

end Eval

open Eval

/-- Positions and names that do not occur have no influence on an evaluation. -/
theorem evalUpTo_seen (view : View) (depth : Nat) {node : Node} (h : node.Avoids view.hidden)
    (frame : FrameId) :
    Seen view view.value (Value.Avoids view.hidden) (evalUpTo depth node frame)
      (evalUpTo depth (view.node node) frame) :=
  seen_of_fits fun machine hm =>
    view.lawful.evalUpTo trivial depth node (view.node node) frame machine ⟨rfl, h⟩ hm trivial

theorem evaluate_seen (view : View) (depth : Nat) {tree : Option Node}
    (ht : ∀ node ∈ tree, node.Avoids view.hidden) (frame : Option FrameId) :
    Seen view view.value (Value.Avoids view.hidden) (evaluate depth tree frame)
      (evaluate depth (tree.map view.node) frame) := by
  refine seen_of_fits fun machine hm => ?_
  have htree : Option.Rel (view.comparison.tree .evaluated) tree (tree.map view.node) := by
    cases tree with
    | none => exact .none
    | some node => exact .some ⟨rfl, ht node rfl⟩
  have hempty : Bindings.Holding (Value.Avoids view.hidden) [] := by simp [Bindings.Holding]
  have hafter : view.comparison.After machine (machine.pushFrame none []).2 :=
    ⟨hm.push hempty, .push _ fun _ _ => rfl⟩
  have hshown : (view.machine machine).pushFrame none [] =
      (machine.heap.size, view.machine (machine.pushFrame none []).2) := by
    simp [Machine.pushFrame, View.machine, view.heap_push, View.frame]
  refine view.lawful.evaluate trivial depth htree ?_
  exact view.lawful.frameOrNew hm (fun _ _ => trivial) hshown hafter trivial

namespace Evaluator

variable (view : View) (depth : Nat) (frame : FrameId)

/-- The messages of one run. -/
theorem runMessages_seen {run : Node} (h : run.Avoids view.hidden) {receiver : Value}
    (hr : receiver.Avoids view.hidden) :
    Seen view (Prod.map view.value view.value)
      (fun pair => pair.1.Avoids view.hidden ∧ pair.2.Avoids view.hidden)
      (sendRun (evalUpTo depth) frame run.span receiver receiver run.children)
      (sendRun (evalUpTo depth) frame (view.node run).span (view.value receiver)
        (view.value receiver) (view.node run).children) := by
  refine seen_of_matches view.comparison.BothFit ?_ fun machine hm => ?_
  · rintro machine pair pair' ⟨hfirst, hsecond⟩
    obtain ⟨hfirst, havoids⟩ := View.fits_iff.mp hfirst
    obtain ⟨hsecond, havoids'⟩ := View.fits_iff.mp hsecond
    exact ⟨Prod.ext hfirst hsecond, havoids, havoids'⟩
  · have hslots : view.comparison.Slots .message run.children (view.node run).children := by
      rw [View.node, Node.relocate_children]
      exact View.slots_node fun _ hm => h.inside hm
    have hreceiver : view.comparison.Fits machine receiver (view.value receiver) :=
      View.fits_iff.mpr ⟨rfl, hr⟩
    rw [View.node, Node.relocate_span, ← View.node]
    exact view.lawful.accord.sendRun (view.lawful.evalUpTo trivial depth) hm trivial hslots run.span
      hreceiver hreceiver

theorem cascades_seen {slots : List (Option Node)} (hs : SlotsAvoid view.hidden slots) (span : Span)
    {receiver last : Value} (hr : receiver.Avoids view.hidden) (hl : last.Avoids view.hidden) :
    Seen view view.value (Value.Avoids view.hidden)
      (cascades (evalUpTo depth) frame span receiver last slots)
      (cascades (evalUpTo depth) frame (view.place span) (view.value receiver) (view.value last)
        (slots.map (Option.map view.node))) :=
  seen_of_fits fun _ hm =>
    view.lawful.accord.cascades (view.lawful.evalUpTo trivial depth) hm trivial
      (View.slots_node hs) span (View.fits_iff.mpr ⟨rfl, hr⟩) (View.fits_iff.mpr ⟨rfl, hl⟩)

end Evaluator

end MiniSmalltalk
