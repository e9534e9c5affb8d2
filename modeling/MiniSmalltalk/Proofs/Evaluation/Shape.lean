import MiniSmalltalk.Proofs.Evaluation.Terms
import MiniSmalltalk.Proofs.Grammar.Derivation

/-! # Trees that can be evaluated

The evaluator expects certain nodes in certain places. `Shape` says which, without reference
to tokens, and every tree that derives from a program has it. -/

namespace MiniSmalltalk

/-- A node has the parts its role asks for. In a block only what belongs to the body is ever
evaluated. -/
inductive Shape : Role → Node → Prop where
  | atom {node : Node} : node.kind = .identifier ∨ node.kind = .integer ∨ node.kind = .string →
      Shape .evaluated node
  | answer {node inner : Node} : node.kind = .answer → node.children = [some inner] →
      Shape .evaluated inner → Shape .evaluated node
  | statements {node : Node} {parts : List Node} : node.kind = .statements →
      node.children = parts.map some → (∀ part ∈ parts, Shape .evaluated part) →
      Shape .evaluated node
  | assignment {node target source : Node} : node.kind = .assignment →
      node.children = [some target, some source] → Shape .evaluated source →
      Shape .evaluated node
  | expression {node receiver : Node} {runs : List Node} : node.kind = .expression →
      node.children = some receiver :: runs.map some → Shape .evaluated receiver →
      (∀ run ∈ runs, Shape .run run) → Shape .evaluated node
  | block {node : Node} {parts : List Node} : node.kind = .block →
      node.children = parts.map some →
      (∀ part ∈ parts, Block.isBody part = true → Shape .evaluated part) →
      Shape .evaluated node
  | run {node : Node} {parts : List Node} : node.kind = .messages →
      node.children = parts.map some → (∀ part ∈ parts, Shape .message part) → Shape .run node
  | message {node : Node} {arguments : List Node} : Evaluator.isMessage node = true →
      node.children = arguments.map some → (∀ argument ∈ arguments, Shape .evaluated argument) →
      Shape .message node

namespace Grammar

def Phrase.role : Phrase → Role
  | .program | .nextStatement | .expression | .primary => .evaluated
  | .cascade | .messages => .run
  | .binaryMessage | .keywordSegment => .message

theorem forall_mem_values {phrase : Phrase} {pieces : List (Piece Node)}
    (h : ∀ piece ∈ pieces, Shape phrase.role piece.value) :
    ∀ tree ∈ Piece.values pieces, Shape phrase.role tree := by
  intro tree hm
  obtain ⟨piece, hp, rfl⟩ := List.mem_map.mp hm
  exact h piece hp

theorem shape_statementsOf {first : Node} {others : List Node} (hf : Shape .evaluated first)
    (ho : ∀ other ∈ others, Shape .evaluated other) :
    Shape .evaluated (.statementsOf (first :: others)) := by
  cases others with
  | nil => exact hf
  | cons second others =>
      refine .statements rfl rfl ?_
      intro part hm
      rcases List.mem_cons.mp hm with rfl | hm
      · exact hf
      · exact ho part hm

/-- A message of several segments has the arguments of them all. -/
theorem shape_joined {segments : List Node} (h : ∀ segment ∈ segments, Shape .message segment) :
    Shape .message (.joined segments) := by
  obtain ⟨arguments, hchildren, hshape⟩ : ∃ arguments : List Node,
      segments.flatMap Node.children = arguments.map some ∧
        ∀ argument ∈ arguments, Shape .evaluated argument := by
    induction segments with
    | nil => exact ⟨[], rfl, by simp⟩
    | cons segment segments ih =>
        obtain ⟨others, hothers, hshape⟩ := ih fun segment hm => h segment (by simp [hm])
        cases h segment (by simp) with
        | @message _ arguments _ hchildren harguments =>
            refine ⟨arguments ++ others, by simp [hchildren, hothers], ?_⟩
            intro argument hm
            rcases List.mem_append.mp hm with hm | hm
            · exact harguments argument hm
            · exact hshape argument hm
  exact .message rfl hchildren hshape

theorem shape_keywordPart {segments : List Node}
    (h : ∀ segment ∈ segments, Shape .message segment) :
    ∀ message ∈ Node.keywordPart segments, Shape .message message := by
  intro message hm
  cases segments with
  | nil => cases hm
  | cons segment segments =>
      obtain rfl := List.mem_singleton.mp hm
      exact shape_joined h

theorem Parameters.isBody_false {tokens arguments : List Node} (h : Parameters tokens arguments) :
    ∀ node ∈ arguments, Block.isBody node = false := by
  cases h <;> simp [Block.isBody, Node.compose]

theorem Temporaries.isBody_false {tokens names : List Node} (h : Temporaries tokens names) :
    ∀ node ∈ names, Block.isBody node = false := by
  cases h <;> simp [Block.isBody, Node.enclose]

theorem shape_block {opening closing : Node} {tokens tokens' arguments names : List Node}
    {body : Option (Piece Node)} (hpar : Parameters tokens arguments)
    (htmp : Temporaries tokens' names) (hb : ∀ piece ∈ body, Shape .evaluated piece.value) :
    Shape .evaluated
      (.enclose .block opening closing (arguments ++ (names ++ Piece.values body.toList))) := by
  refine .block rfl rfl ?_
  intro part hm hbody
  rcases List.mem_append.mp hm with hm | hm
  · simp [hpar.isBody_false part hm] at hbody
  · rcases List.mem_append.mp hm with hm | hm
    · simp [htmp.isBody_false part hm] at hbody
    · obtain ⟨piece, hp, rfl⟩ := List.mem_map.mp hm
      exact hb piece (Option.mem_toList.mp hp)

theorem shape_token {token : Node} (h : Terminal .identifier token) : Shape .message token := by
  have hchildren : token.children = ([] : List Node).map some := by
    simpa [Node.isLeaf] using h.leaf
  exact .message (by simp [Evaluator.isMessage, h.kind_eq]) hchildren (by simp)

theorem shape_selector {selector argument : Node} (hs : Evaluator.isMessage selector = true)
    (ha : Shape .evaluated argument) : Shape .message (selector.atop [argument]) := by
  have hchildren : (selector.atop [argument]).children = [argument].map some := rfl
  exact .message hs hchildren (by simpa using ha)

/-- Every derivation gives a tree of the shape that its phrase asks for. -/
theorem Derivation.shape {phrase : Phrase} {tokens : List Node} {tree : Node}
    (h : Derivation phrase tokens tree) : Shape phrase.role tree := by
  induction h with
  | answer hc _ _ ih => exact .answer hc.kind_eq rfl ih
  | statements _ _ _ ihf iho =>
      exact shape_statementsOf ihf (@forall_mem_values .nextStatement _ iho)
  | nextStatement _ _ ih => exact ih
  | assignment _ hs _ ih => exact .assignment hs.kind_eq rfl ih
  | @send _ _ run cascades _ _ _ ihr ihrun ihc =>
      refine .expression rfl rfl ihr ?_
      intro node hm
      rcases List.mem_append.mp hm with hm | hm
      · obtain ⟨piece, hp, rfl⟩ := List.mem_map.mp hm
        exact ihrun piece (Option.mem_toList.mp hp)
      · exact @forall_mem_values .cascade _ ihc node hm
  | cascade _ _ ih => exact ih
  | @messages unary binary segments hu _ _ _ ihb ihs =>
      refine .run rfl rfl ?_
      intro node hm
      rcases List.mem_append.mp hm with hm | hm
      · exact shape_token (hu node hm)
      · rcases List.mem_append.mp hm with hm | hm
        · exact @forall_mem_values .binaryMessage _ ihb node hm
        · exact shape_keywordPart (@forall_mem_values .keywordSegment _ ihs) node hm
  | binaryMessage hs _ ih => exact shape_selector (by simp [Evaluator.isMessage, hs.kind_eq]) ih
  | keywordSegment hs _ ih => exact shape_selector (by simp [Evaluator.isMessage, hs.kind_eq]) ih
  | name ht => exact .atom (.inl ht.kind_eq)
  | integer ht => exact .atom (.inr (.inl ht.kind_eq))
  | negative _ _ => exact .atom (.inr (.inl rfl))
  | string ht => exact .atom (.inr (.inr ht.kind_eq))
  | block _ hpar htmp _ _ ih => exact shape_block hpar htmp ih
  | parenthesised _ _ _ ih => exact ih

end Grammar

end MiniSmalltalk
