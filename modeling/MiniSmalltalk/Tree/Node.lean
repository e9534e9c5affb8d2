import MiniSmalltalk.Source.Span
import MiniSmalltalk.Tree.Kind

/-! # Nodes

One type serves tokens and syntax trees. Children are slots, and a slot may stay empty. -/

namespace MiniSmalltalk

/-- A token or a construct, with its text if it has one and the bytes it covers. -/
structure Node where
  kind : Kind
  text : Option String
  children : List (Option Node)
  span : Span
  deriving Inhabited

namespace Node

def bare (kind : Kind) (span : Span) : Node := ⟨kind, none, [], span⟩

def leaf (kind : Kind) (text : String) (span : Span) : Node := ⟨kind, some text, [], span⟩

/-- Whether a node has no child slot at all. -/
def isLeaf (node : Node) : Bool := node.children.isEmpty

def textOrEmpty (node : Node) : String := node.text.getD ""

/-- The span of a node once `child` stands under it: a construct starts out with the span
of its first child, everything else widens its own. -/
def spanWith (node child : Node) : Span :=
  if node.isLeaf && !node.kind.isToken then child.span else node.span.merge child.span

def append (node child : Node) : Node :=
  { node with children := node.children ++ [some child], span := node.spanWith child }

def appendAll (node : Node) (children : List Node) : Node := children.foldl append node

/-- Adds a slot. An empty one leaves the span alone. -/
def appendSlot (node : Node) : Option Node → Node
  | some child => node.append child
  | none => { node with children := node.children ++ [none] }

/-- The child in a slot; an empty slot and a slot that does not exist both give none. -/
def child? (node : Node) (index : Nat) : Option Node := node.children[index]?.join

/-- The wording of a node in reports, such as ``identifier `foo` ``. -/
def describe (node : Node) : String :=
  match node.text with
  | some text =>
      if node.kind.carriesText then s!"{node.kind.literal} `{text}`" else node.kind.literal
  | none => node.kind.literal

@[simp] theorem isLeaf_bare (kind : Kind) (span : Span) : (bare kind span).isLeaf = true := rfl

@[simp] theorem isLeaf_leaf (kind : Kind) (text : String) (span : Span) :
    (leaf kind text span).isLeaf = true := rfl

@[simp] theorem append_kind (node child : Node) : (node.append child).kind = node.kind := rfl

@[simp] theorem append_text (node child : Node) : (node.append child).text = node.text := rfl

@[simp] theorem append_children (node child : Node) :
    (node.append child).children = node.children ++ [some child] := rfl

@[simp] theorem isLeaf_append (node child : Node) : (node.append child).isLeaf = false := by
  simp [isLeaf]

end Node

end MiniSmalltalk
