import MiniSmalltalk.Tree.Node

/-! # Outlines

The outline of a tree has one line for each node, indented by its depth, and one line for
each empty slot. -/

namespace MiniSmalltalk.Node

/-- A node on one line: its kind, and its text between ticks if it has one. -/
def heading (node : Node) : String :=
  match node.text with
  | some text => s!"{node.kind.name} '{text}'"
  | none => node.kind.name

/-- One line of an outline, four blanks for each level of depth. -/
def outlineLine (depth : Nat) (text : String) : String :=
  String.ofList (List.replicate (4 * depth) ' ') ++ text ++ "\n"

mutual

/-- The lines of a node and of everything below it. -/
def outlineAt (depth : Nat) : Node → String
  | ⟨kind, text, children, span⟩ =>
      outlineLine depth (heading ⟨kind, text, children, span⟩) ++ outlineSlots (depth + 1) children

def outlineSlots (depth : Nat) : List (Option Node) → String
  | [] => ""
  | slot :: slots => outlineSlot depth slot ++ outlineSlots depth slots

def outlineSlot (depth : Nat) : Option Node → String
  | some node => outlineAt depth node
  | none => outlineLine depth "undefined"

end

def outline (node : Node) : String := node.outlineAt 0

end MiniSmalltalk.Node
