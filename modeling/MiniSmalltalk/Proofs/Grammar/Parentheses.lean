import MiniSmalltalk.Proofs.Grammar.Cascade

/-! # Parentheses around a receiver

The receiver of an expression may be put in parentheses together with some messages of the first
run. What is in them becomes the receiver of the messages behind them. This module writes both
forms down and derives them from the grammar. -/

namespace MiniSmalltalk

namespace Grammar

/-- The parts of an expression whose first run is taken apart behind some of its messages. Further
runs are sent to the receiver of the last message, which then stands behind. -/
structure Chain where
  receiver : Piece Node
  before : List (Piece Node)
  after : List (Piece Node)
  runs : List (Piece Node)
  split : after = [] → runs = []

namespace Chain

variable (chain : Chain)

/-- `P m1 … mn ; R2 ; … ; Rk` -/
def written : List Node :=
  chain.receiver.tokens ++ (Piece.tokensOf (chain.before ++ chain.after) ++
    Cascade.behind [.leaf .semicolon ";" .origin] chain.runs)

def tree : Node :=
  .chain chain.receiver.value (Piece.values (chain.before ++ chain.after))
    (Piece.values chain.runs)

/-- The tree of `P m1 … mi`, as an expression. -/
def start : Node := .sending chain.receiver.value (Piece.values chain.before)

/-- What `P m1 … mi` is evaluated as. A receiver alone is no expression. -/
def front : Node :=
  match chain.before with
  | [] => chain.receiver.value
  | _ :: _ => chain.start

/-- `( P m1 … mi )` -/
def enclosed : Piece Node :=
  ⟨.leaf .leftParenthesis "(" .origin :: (chain.receiver.tokens ++
    Piece.tokensOf chain.before ++ [.leaf .rightParenthesis ")" .origin]), chain.start⟩

/-- `( P m1 … mi ) m(i+1) … mn ; R2 ; … ; Rk` -/
def parenthesised : List Node :=
  chain.enclosed.tokens ++ (Piece.tokensOf chain.after ++
    Cascade.behind [.leaf .semicolon ";" .origin] chain.runs)

/-- The tree of `( P m1 … mi ) m(i+1) … mn ; R2 ; … ; Rk`. -/
def regrouped : Node :=
  .chain chain.start (Piece.values chain.after) (Piece.values chain.runs)

/-- The parts are what they are called, and together they are one expression. -/
structure Parses : Prop where
  receiver : Derivation .primary chain.receiver.tokens chain.receiver.value
  message : ∀ message ∈ chain.before ++ chain.after, OneMessage message.tokens message.value
  run : ∀ run ∈ chain.runs, Derivation .messages run.tokens run.value
  expression : Derivation .expression chain.written chain.tree

end Chain

namespace Chain.Parses

variable {chain : Chain}

/-- Messages in order and further runs parse as an expression. -/
theorem of_ordered
    (receiver : Derivation .primary chain.receiver.tokens chain.receiver.value)
    (message : ∀ message ∈ chain.before ++ chain.after, OneMessage message.tokens message.value)
    (ordered : (Piece.values (chain.before ++ chain.after)).Pairwise Precedes)
    (run : ∀ run ∈ chain.runs, Derivation .messages run.tokens run.value) : chain.Parses :=
  ⟨receiver, message, run, chain_derivation receiver message ordered run⟩

variable (h : chain.Parses)

include h

theorem ordered : (Piece.values (chain.before ++ chain.after)).Pairwise Precedes := by
  have hexpression := h.expression
  rw [tree] at hexpression
  cases hm : Piece.values (chain.before ++ chain.after) with
  | nil => exact .nil
  | cons message messages =>
      rw [hm] at hexpression
      obtain ⟨words, hrun⟩ := first_run hexpression
      exact ordered_of_derivation hrun

theorem tree_derivation : Derivation .program chain.written chain.tree :=
  program_of_expression h.expression

/-- What is in the parentheses is an expression, so together with them it is a receiver. -/
theorem enclosed_derivation :
    Derivation .primary chain.enclosed.tokens chain.enclosed.value := by
  have hordered := h.ordered
  rw [Piece.values, List.map_append] at hordered
  have hstart := @chain_derivation _ _ [] h.receiver
    (fun message hm => h.message message (List.mem_append_left _ hm))
    (List.pairwise_append.mp hordered).1 (by simp)
  rw [Cascade.behind, List.flatMap_nil, List.append_nil, Piece.values_nil, Node.chain_nil] at hstart
  exact .parenthesised ⟨rfl, rfl⟩ hstart ⟨rfl, rfl⟩

theorem regrouped_derivation : Derivation .program chain.parenthesised chain.regrouped := by
  have hordered := h.ordered
  rw [Piece.values, List.map_append] at hordered
  exact program_of_expression <| chain_derivation h.enclosed_derivation
    (fun message hm => h.message message (List.mem_append_right _ hm))
    (List.pairwise_append.mp hordered).2.1 h.run

end Chain.Parses

end Grammar

end MiniSmalltalk
