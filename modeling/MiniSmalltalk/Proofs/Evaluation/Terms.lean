import Mathlib.Data.List.Forall2
import MiniSmalltalk.Evaluation.Tree

/-! # What stands for what

Two evaluations are compared on terms: which machines, frames and names are in play, and which
values and trees of the one stand for which of the other. The conditions on trees follow the
evaluator, which looks at some parts of a node and leaves others alone. -/

namespace MiniSmalltalk

/-- What the evaluator does with a node: it evaluates it, sends it as a run of messages or
sends it as one message. -/
inductive Role where
  | evaluated
  | run
  | message
  deriving DecidableEq

/-- What stands for what on a second stage. -/
structure Terms where
  /-- The machines in play. -/
  holds : Machine → Prop
  /-- How a machine may follow another. -/
  later : Machine → Machine → Prop
  /-- The frames in which trees may be evaluated. -/
  frame : Machine → FrameId → Prop
  /-- The names that may be read. -/
  reads : String → Prop
  /-- The names that may be assigned to. -/
  assigns : String → Prop
  /-- The nodes, or the lack of one, that may be met where others are expected. -/
  stray : Option Kind → Prop
  /-- Where a span lies on the second stage. -/
  place : Span → Span
  /-- Which block stands for a block. -/
  block : Machine → Block → Block → Prop
  /-- Which tree stands for a tree in a role. -/
  tree : Role → Node → Node → Prop

namespace Terms

variable (terms : Terms)

/-- A machine in play that follows another. -/
def After (machine behind : Machine) : Prop := terms.holds behind ∧ terms.later machine behind

inductive Fits (machine : Machine) : Value → Value → Prop where
  | nil : Fits machine .nil .nil
  | string (text : String) : Fits machine (.string text) (.string text)
  | number (value : Float) : Fits machine (.number value) (.number value)
  | block {block block' : Block} : terms.block machine block block' →
      Fits machine (.block block) (.block block')

abbrev BothFit (machine : Machine) (pair pair' : Value × Value) : Prop :=
  terms.Fits machine pair.1 pair'.1 ∧ terms.Fits machine pair.2 pair'.2

/-- Nodes that differ in their children and in where they lie only. -/
structure Head (node node' : Node) : Prop where
  kind : node'.kind = node.kind
  text : node'.text = node.text
  span : node'.span = terms.place node.span

inductive Slot (stands : Node → Node → Prop) : Option Node → Option Node → Prop where
  | empty : terms.stray none → Slot stands none none
  | held {node node' : Node} : stands node node' → Slot stands (some node) (some node')

def Slots (role : Role) : List (Option Node) → List (Option Node) → Prop :=
  List.Forall₂ (terms.Slot (terms.tree role))

def Target (node node' : Node) : Prop := terms.Head node node' ∧ terms.assigns node.textOrEmpty

/-- What the parts of a node have to be so that the evaluator can do with it what its role says. -/
def Parts : Role → Node → Node → Prop
  | .evaluated, node, node' =>
      match node.kind with
      | .statements => terms.Slots .evaluated node.children node'.children
      | .expression =>
          terms.Slot (terms.tree .evaluated) (node.child? 0) (node'.child? 0) ∧
            terms.Slots .run (node.children.drop 1) (node'.children.drop 1)
      | .assignment =>
          terms.Slot terms.Target (node.child? 0) (node'.child? 0) ∧
            terms.Slot (terms.tree .evaluated) (node.child? 1) (node'.child? 1)
      | .answer => terms.Slot (terms.tree .evaluated) (node.child? 0) (node'.child? 0)
      | .identifier => terms.reads node.textOrEmpty
      | .string | .integer => True
      | .block => ∀ machine frame identity, terms.frame machine frame →
          terms.block machine (.ofNode node frame identity) (.ofNode node' frame identity)
      | kind => terms.stray (some kind)
  | .run, node, node' =>
      if node.kind = .messages then terms.Slots .message node.children node'.children
      else terms.stray (some node.kind)
  | .message, node, node' =>
      if Evaluator.isMessage node then terms.Slots .evaluated node.children node'.children
      else terms.stray (some node.kind)

/-- Nodes that correspond, and so do their parts. -/
def Opens (role : Role) (node node' : Node) : Prop :=
  terms.Head node node' ∧ terms.Parts role node node'

structure Sent (machine : Machine) (message message' : Message) : Prop where
  selector : message'.selector = message.selector
  operation : message'.operation = message.operation
  arguments : List.Forall₂ (terms.Fits machine) message.arguments message'.arguments
  span : message'.span = terms.place message.span

/-- What is in play stays so, and what stands for something can be opened like it. -/
structure Lawful : Prop where
  frame_after : ∀ {machine behind id}, terms.After machine behind → terms.frame machine id →
    terms.frame behind id
  block_after : ∀ {machine behind block block'}, terms.After machine behind →
    terms.block machine block block' → terms.block behind block block'
  opens : ∀ {role node node'}, terms.tree role node node' → terms.Opens role node node'
  body : ∀ {machine block block'}, terms.block machine block block' →
    block'.arity = block.arity ∧ Option.Rel (terms.tree .evaluated) block.body block'.body

variable {terms}

/-- Whatever may be met, only the messages of a run count. -/
theorem parts_run {node node' : Node} (hn : ∀ kind, terms.stray kind)
    (h : node.kind = .messages → terms.Slots .message node.children node'.children) :
    terms.Parts .run node node' := by
  rw [Parts]
  by_cases hk : node.kind = .messages
  · rw [if_pos hk]
    exact h hk
  · rw [if_neg hk]
    exact hn _

/-- Whatever may be met, only the arguments of a message count. -/
theorem parts_message {node node' : Node} (hn : ∀ kind, terms.stray kind)
    (h : Evaluator.isMessage node = true → terms.Slots .evaluated node.children node'.children) :
    terms.Parts .message node node' := by
  rw [Parts]
  by_cases hm : Evaluator.isMessage node = true
  · rw [if_pos hm]
    exact h hm
  · rw [if_neg hm]
    exact hn _

namespace Fits

variable {machine : Machine} {value value' : Value}

theorem kind (h : terms.Fits machine value value') : value'.kind = value.kind := by
  cases h <;> rfl

theorem isNil (h : terms.Fits machine value value') : value'.isNil = value.isNil := by
  cases h <;> rfl

end Fits

theorem Lawful.fits_after (law : terms.Lawful) {machine behind : Machine}
    (h : terms.After machine behind) {value value' : Value}
    (hv : terms.Fits machine value value') : terms.Fits behind value value' := by
  cases hv with
  | nil => exact .nil
  | string text => exact .string text
  | number value => exact .number value
  | block hb => exact .block (law.block_after h hb)

namespace Head

variable {node node' : Node} (h : terms.Head node node')

include h

theorem textOrEmpty : node'.textOrEmpty = node.textOrEmpty := by
  rw [Node.textOrEmpty, h.text, Node.textOrEmpty]

theorem describe : node'.describe = node.describe := by
  rw [Node.describe, h.text, h.kind, Node.describe]

theorem isMessage : Evaluator.isMessage node' = Evaluator.isMessage node := by
  rw [Evaluator.isMessage, h.kind, Evaluator.isMessage]

end Head

end Terms

/-! ### What stands for itself -/

/-- What a single evaluation stays within: blocks and trees that stand for themselves. -/
structure Sphere where
  /-- The machines in play. -/
  holds : Machine → Prop
  /-- How a machine may follow another. -/
  later : Machine → Machine → Prop
  /-- The frames in which trees may be evaluated. -/
  frame : Machine → FrameId → Prop
  /-- The names that may be read. -/
  reads : String → Prop
  /-- The nodes, or the lack of one, that may be met where others are expected. -/
  stray : Option Kind → Prop
  /-- The blocks that may be met. -/
  block : Machine → Block → Prop
  /-- The trees that may be met in a role. -/
  tree : Role → Node → Prop

namespace Sphere

variable (sphere : Sphere)

/-- The terms on which everything stands for itself. -/
def terms : Terms where
  holds := sphere.holds
  later := sphere.later
  frame := sphere.frame
  reads := sphere.reads
  assigns _ := True
  stray := sphere.stray
  place := id
  block machine block block' := block' = block ∧ sphere.block machine block
  tree role node node' := node' = node ∧ sphere.tree role node

/-- A value that is no block, or a block that may be met. -/
def Fits (machine : Machine) : Value → Prop
  | .block literal => sphere.block machine literal
  | _ => True

variable {sphere} {machine : Machine}

theorem fits_iff {value value' : Value} :
    sphere.terms.Fits machine value value' ↔ value' = value ∧ sphere.Fits machine value := by
  constructor
  · intro h
    cases h with
    | block hb => exact ⟨congrArg Value.block hb.1, hb.2⟩
    | _ => exact ⟨rfl, trivial⟩
  · rintro ⟨rfl, h⟩
    cases value' with
    | nil => exact .nil
    | string text => exact .string text
    | number value => exact .number value
    | block block => exact .block ⟨rfl, h⟩

theorem forall₂_fits_iff {values values' : List Value} :
    List.Forall₂ (sphere.terms.Fits machine) values values' ↔
      values' = values ∧ ∀ value ∈ values, sphere.Fits machine value := by
  constructor
  · intro h
    induction h with
    | nil => exact ⟨rfl, by simp⟩
    | cons hv _ ih =>
        obtain ⟨rfl, hfits⟩ := fits_iff.mp hv
        obtain ⟨rfl, hall⟩ := ih
        exact ⟨rfl, List.forall_mem_cons.mpr ⟨hfits, hall⟩⟩
  · rintro ⟨rfl, h⟩
    exact List.forall₂_same.mpr fun value hm => fits_iff.mpr ⟨rfl, h value hm⟩

/-- What is found, if anything, stands for itself. -/
theorem found_self {found : Option Value}
    (h : ∀ value, found = some value → sphere.Fits machine value) :
    Option.Rel (sphere.terms.Fits machine) found found := by
  cases found with
  | none => exact .none
  | some value => exact .some (fits_iff.mpr ⟨rfl, h value rfl⟩)

theorem tree_self {role : Role} {tree : Option Node} (h : ∀ node ∈ tree, sphere.tree role node) :
    Option.Rel (sphere.terms.tree role) tree tree := by
  cases tree with
  | none => exact .none
  | some node => exact .some ⟨rfl, h node rfl⟩

theorem slot_self {stands : Node → Node → Prop} {slot : Option Node}
    (hn : slot = none → sphere.stray none) (hs : ∀ node ∈ slot, stands node node) :
    sphere.terms.Slot stands slot slot := by
  cases slot with
  | none => exact .empty (hn rfl)
  | some node => exact .held (hs node rfl)

theorem slots_self {role : Role} {slots : List (Option Node)}
    (hn : none ∈ slots → sphere.stray none)
    (hs : ∀ node, some node ∈ slots → sphere.tree role node) :
    sphere.terms.Slots role slots slots := by
  refine List.forall₂_same.mpr fun slot hm => slot_self (fun h => hn (h ▸ hm)) fun node hnode => ?_
  exact ⟨rfl, hs node (Option.mem_def.mp hnode ▸ hm)⟩

end Sphere

end MiniSmalltalk
