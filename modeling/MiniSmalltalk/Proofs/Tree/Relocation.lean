import MiniSmalltalk.Object.Value

/-! # Relocated trees

A relocated tree stands elsewhere in its source and is the same otherwise. Relocation can also
say that nothing moves: a tree is its own relocation if all its spans are kept. -/

namespace MiniSmalltalk.Node

mutual

/-- A tree whose spans are placed anew. -/
def relocate (place : Span → Span) : Node → Node
  | ⟨kind, text, children, span⟩ => ⟨kind, text, relocateSlots place children, place span⟩

def relocateSlots (place : Span → Span) : List (Option Node) → List (Option Node)
  | [] => []
  | slot :: slots => relocateSlot place slot :: relocateSlots place slots

def relocateSlot (place : Span → Span) : Option Node → Option Node
  | none => none
  | some node => some (relocate place node)

end

/-- A tree without regard to where it stands. -/
def placeless (node : Node) : Node := node.relocate fun _ => .origin

variable (place : Span → Span)

theorem relocateSlots_eq_map (slots : List (Option Node)) :
    relocateSlots place slots = slots.map (Option.map (relocate place)) := by
  induction slots with
  | nil => rfl
  | cons slot slots ih => cases slot <;> simp [relocateSlots, relocateSlot, ih]

@[simp] theorem relocate_kind (node : Node) : (node.relocate place).kind = node.kind := by
  cases node
  rfl

@[simp] theorem relocate_text (node : Node) : (node.relocate place).text = node.text := by
  cases node
  rfl

@[simp] theorem relocate_span (node : Node) : (node.relocate place).span = place node.span := by
  cases node
  rfl

@[simp] theorem relocate_children (node : Node) :
    (node.relocate place).children = node.children.map (Option.map (relocate place)) := by
  cases node
  exact relocateSlots_eq_map place _

@[simp] theorem relocate_isLeaf (node : Node) : (node.relocate place).isLeaf = node.isLeaf := by
  simp [isLeaf]

@[simp] theorem relocate_textOrEmpty (node : Node) :
    (node.relocate place).textOrEmpty = node.textOrEmpty := by
  simp [textOrEmpty]

@[simp] theorem relocate_describe (node : Node) :
    (node.relocate place).describe = node.describe := by
  simp [describe]

@[simp] theorem relocate_child? (node : Node) (index : Nat) :
    (node.relocate place).child? index = (node.child? index).map (relocate place) := by
  rw [child?, child?, relocate_children, List.getElem?_map]
  cases node.children[index]? <;> rfl

/-- What makes two trees the same. -/
theorem eq_of_parts {node other : Node} (hk : node.kind = other.kind) (ht : node.text = other.text)
    (hc : node.children = other.children) (hs : node.span = other.span) : node = other := by
  cases node
  cases other
  simp_all

/-! ### Everywhere in a tree -/

theorem mem_of_child? {node child : Node} {index : Nat} (h : node.child? index = some child) :
    some child ∈ node.children :=
  List.mem_of_getElem? (Option.join_eq_some_iff.mp h)

inductive Everywhere (holds : Node → Prop) : Node → Prop where
  | node {node : Node} : holds node →
      (∀ child, some child ∈ node.children → Everywhere holds child) →
      Everywhere holds node

namespace Everywhere

variable {holds weaker : Node → Prop} {node child : Node}

theorem here (h : Everywhere holds node) : holds node := by
  cases h with
  | node h _ => exact h

theorem inside (h : Everywhere holds node) (hm : some child ∈ node.children) :
    Everywhere holds child := by
  cases h with
  | node _ h => exact h child hm

theorem child? (h : Everywhere holds node) {index : Nat} (hc : node.child? index = some child) :
    Everywhere holds child :=
  h.inside (mem_of_child? hc)

theorem leaf (hl : node.isLeaf = true) (h : holds node) : Everywhere holds node := by
  refine .node h fun child hm => ?_
  rw [isLeaf, List.isEmpty_iff] at hl
  simp [hl] at hm

theorem mono (h : Everywhere holds node) (hw : ∀ node, holds node → weaker node) :
    Everywhere weaker node := by
  induction h with
  | node h _ ih => exact .node (hw _ h) ih

end Everywhere

/-- A tree is its own relocation if all its spans are kept. -/
theorem relocate_of_everywhere {node : Node}
    (h : node.Everywhere fun node => place node.span = node.span) : node.relocate place = node := by
  induction h with
  | @node node hspan _ ih =>
      have hslots : ∀ slot ∈ node.children, slot.map (relocate place) = id slot := by
        intro slot hm
        cases slot with
        | none => rfl
        | some child => simp [ih child hm]
      refine eq_of_parts (by simp) (by simp) ?_ (by simpa using hspan)
      rw [relocate_children, List.map_congr_left hslots, List.map_id]

/-- What holds of all nodes holds everywhere in a tree. With nothing to hold, this is induction
on trees. -/
theorem everywhere_of_forall {holds : Node → Prop} (h : ∀ node, holds node) (node : Node) :
    Everywhere holds node := by
  refine @rec (Everywhere holds) (fun slots => ∀ child, some child ∈ slots → Everywhere holds child)
    (fun slot => ∀ child, slot = some child → Everywhere holds child) ?_ ?_ ?_ ?_ ?_ node
  · intro kind text children span ih
    exact .node (h _) ih
  · simp
  · intro slot slots hslot hslots child hm
    rcases List.mem_cons.mp hm with hm | hm
    · exact hslot child hm.symm
    · exact hslots child hm
  · simp
  · rintro node ih child ⟨⟩
    exact ih

/-- The nodes that stand in a tree, its root among them. -/
inductive Contains (tree : Node) : Node → Prop where
  | root : Contains tree tree
  | child {node child : Node} : Contains tree node → some child ∈ node.children →
      Contains tree child

/-- What holds everywhere in a tree is what holds of the nodes in it. -/
theorem everywhere_iff_contains {holds : Node → Prop} {tree : Node} :
    tree.Everywhere holds ↔ ∀ node, tree.Contains node → holds node := by
  constructor
  · intro h node hc
    have hnode : node.Everywhere holds := by
      induction hc with
      | root => exact h
      | child _ hm ih => exact ih.inside hm
    exact hnode.here
  · intro h
    have hall : ∀ node, tree.Contains node → node.Everywhere holds := by
      intro node
      induction everywhere_of_forall (fun _ => trivial) node with
      | node _ _ ih =>
          exact fun hc => .node (h _ hc) fun child hm => ih child hm (hc.child hm)
    exact hall tree .root

theorem relocate_relocate (first second : Span → Span) (node : Node) :
    (node.relocate first).relocate second = node.relocate (second ∘ first) := by
  induction everywhere_of_forall (fun _ => trivial) node with
  | @node node _ _ ih =>
      refine eq_of_parts (by simp) (by simp) ?_ (by simp)
      simp only [relocate_children, List.map_map]
      refine List.map_congr_left ?_
      intro slot hm
      cases slot with
      | none => rfl
      | some child => simp [ih child hm]

/-! ### Names -/

def names (node : Node) : List String :=
  match node.kind with
  | .identifier => [node.textOrEmpty]
  | .assignment => ((node.child? 0).map textOrEmpty).toList
  | .blockArguments | .temporaries => Block.names node
  | _ => []

/-- No hidden name occurs in a tree. -/
def Avoids (hidden : String → Bool) (node : Node) : Prop :=
  node.Everywhere fun node => ∀ name ∈ node.names, hidden name = false

theorem avoids_nothing (node : Node) : node.Avoids fun _ => false :=
  everywhere_of_forall (fun _ _ _ => rfl) node

end MiniSmalltalk.Node
