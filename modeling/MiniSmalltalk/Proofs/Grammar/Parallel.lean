import MiniSmalltalk.Proofs.Grammar.Layout
import MiniSmalltalk.Proofs.Grammar.Parsing

/-! # Reading in parallel

The same tokens, laid out differently, are read alike: every production matches both or none,
gives the same tree up to positions, leaves the same tokens, and fails for the same cause. -/

namespace MiniSmalltalk

/-! ### Building trees without positions -/

namespace Node

@[simp] theorem placeless_describe (node : Node) : node.placeless.describe = node.describe := by
  simp [placeless]

theorem bare_placeless (kind : Kind) (span : Span) :
    (bare kind span).placeless = bare kind .origin := rfl

theorem withSpan_placeless (node : Node) (span : Span) :
    ({ node with span } : Node).placeless = node.placeless :=
  eq_of_parts (by simp) (by simp) (by simp) (by simp)

theorem append_placeless (node child : Node) :
    (node.append child).placeless = node.placeless.append child.placeless := by
  refine eq_of_parts (by simp) (by simp) (by simp) ?_
  simp [append, spanWith]

theorem appendAll_placeless (node : Node) (children : List Node) :
    (node.appendAll children).placeless = node.placeless.appendAll (children.map placeless) := by
  induction children generalizing node with
  | nil => rfl
  | cons child children ih =>
      simp only [appendAll, List.foldl_cons, List.map_cons] at ih ⊢
      rw [ih, append_placeless]

/-- Nodes that are the same up to positions agree in all that a test may look at. -/
theorem same_of_placeless {node other : Node} (h : other.placeless = node.placeless) :
    other.kind = node.kind ∧ other.textOrEmpty = node.textOrEmpty ∧ other.isLeaf = node.isLeaf ∧
      other.describe = node.describe := by
  refine ⟨?_, ?_, ?_, ?_⟩
  · simpa using congrArg kind h
  · simpa using congrArg textOrEmpty h
  · simpa using congrArg isLeaf h
  · simpa using congrArg describe h

end Node

namespace Grammar

theorem negative_placeless (minus integer : Node) :
    (negative minus integer).placeless = negative minus.placeless integer.placeless := by
  refine Node.eq_of_parts ?_ ?_ ?_ ?_ <;> simp [negative]

theorem addSegment_placeless (message : Node) (segment : Node × Node) :
    (addSegment message segment).placeless =
      addSegment message.placeless (segment.map Node.placeless Node.placeless) := by
  rw [addSegment, Node.append_placeless]
  refine congrArg (Node.append · _) (Node.eq_of_parts ?_ ?_ ?_ ?_) <;> simp

theorem foldl_addSegment_placeless (segments : List (Node × Node)) (message : Node) :
    (segments.foldl addSegment message).placeless =
      (segments.map (Prod.map Node.placeless Node.placeless)).foldl addSegment
        message.placeless := by
  induction segments generalizing message with
  | nil => rfl
  | cons segment segments ih =>
      rw [List.foldl_cons, ih, addSegment_placeless]
      rfl

theorem sequence_placeless (parts : List Node) :
    (sequence parts).map Node.placeless = sequence (parts.map Node.placeless) := by
  match parts with
  | [] => rfl
  | [only] => rfl
  | first :: second :: others =>
      simp only [sequence, Option.map_some, Node.appendAll_placeless, Node.bare_placeless,
        List.map_cons]

/-! ### Two readers on two layouts -/

variable {α β γ δ : Type}

/-- The same tokens lie ahead of two streams, laid out differently. -/
def AlikeAhead (s s' : TokenStream) : Prop :=
  s.Plain ∧ s'.Plain ∧ ∃ tokens others : List Node,
    s.ahead = tokens.map .ok ∧ s'.ahead = others.map .ok ∧ Alike tokens others

/-- Two readers have come to the same: to values that cannot be told apart, with the same tokens
ahead, or to faults with the same cause. -/
inductive Corresponds (erase : α → γ) : EStateM.Result SyntaxFault TokenStream α →
    EStateM.Result SyntaxFault TokenStream α → Prop where
  | ok {value value' : α} {behind behind' : TokenStream} : erase value' = erase value →
      AlikeAhead behind behind' → Corresponds erase (.ok value behind) (.ok value' behind')
  | error {fault fault' : SyntaxFault} {behind behind' : TokenStream} :
      fault'.cause = fault.cause → Corresponds erase (.error fault behind) (.error fault' behind')

/-- Wherever the same tokens lie ahead, two readers come to the same. -/
def Parallel (erase : α → γ) (reader other : Reader α) : Prop :=
  ∀ s s', AlikeAhead s s' → Corresponds erase (reader s) (other s')

/-- Productions that give the same trees up to positions. -/
abbrev Uniform (reader other : Production) : Prop :=
  Parallel (Option.map Node.placeless) reader other

namespace Parallel

variable {erase : α → γ} {final : β → δ} {reader other : Reader α}

theorem pure {value value' : α} (h : erase value' = erase value) :
    Parallel erase (Pure.pure value) (Pure.pure value') :=
  fun _ _ hs => .ok h hs

theorem fail {fault fault' : SyntaxFault} (h : fault'.cause = fault.cause) :
    Parallel erase (throw fault) (throw fault') :=
  fun _ _ _ => .error h

theorem bind {next next' : α → Reader β} (h : Parallel erase reader other)
    (hn : ∀ value value', erase value' = erase value →
      Parallel final (next value) (next' value')) :
    Parallel final (reader >>= next) (other >>= next') := by
  intro s s' hs
  have hfirst := h s s' hs
  simp only [Bind.bind, EStateM.bind]
  generalize reader s = result, other s' = result' at hfirst
  cases hfirst with
  | ok hvalue hbehind => exact hn _ _ hvalue _ _ hbehind
  | error hcause => exact .error hcause

/-- A reader that may find nothing is followed by one of two readers. -/
theorem bindOption {reader other : Reader (Option α)} {next next' : Option α → Reader β}
    (h : Parallel (Option.map erase) reader other)
    (hnone : Parallel final (next none) (next' none))
    (hsome : ∀ value value', erase value' = erase value →
      Parallel final (next (some value)) (next' (some value'))) :
    Parallel final (reader >>= next) (other >>= next') := by
  apply h.bind
  intro found found' hfound
  cases found with
  | none =>
      obtain rfl := Option.map_eq_none_iff.mp hfound
      exact hnone
  | some value =>
      obtain ⟨value', rfl, hvalue⟩ := Option.map_eq_some_iff.mp hfound
      exact hsome value value' hvalue

/-- A repetition is followed by one of two readers. -/
theorem bindList {reader other : Reader (List α)} {next next' : List α → Reader β}
    (h : Parallel (List.map erase) reader other)
    (hnil : Parallel final (next []) (next' []))
    (hcons : ∀ first first' others others', erase first' = erase first →
      others'.map erase = others.map erase →
      Parallel final (next (first :: others)) (next' (first' :: others'))) :
    Parallel final (reader >>= next) (other >>= next') := by
  apply h.bind
  intro found found' hfound
  cases found with
  | nil =>
      obtain rfl := List.map_eq_nil_iff.mp hfound
      exact hnil
  | cons first others =>
      obtain ⟨first', others', rfl, hfirst, hothers⟩ := List.map_eq_cons_iff.mp hfound
      exact hcons first first' others others' hfirst hothers

end Parallel

/-! ### Tokens -/

theorem read_uniform : Uniform read read := by
  rintro s s' ⟨hs, hs', tokens, others, hv, hv', ha⟩
  cases tokens with
  | nil =>
      obtain rfl := ha.nil_inv
      obtain ⟨behind, hr, hb, hba⟩ := read_returns_none s hs hv
      obtain ⟨behind', hr', hb', hba'⟩ := read_returns_none s' hs' hv'
      rw [hr, hr']
      exact .ok rfl ⟨hb, hb', [], [], hba, hba', rfl⟩
  | cons token tokens =>
      obtain ⟨other, others, rfl, hother, hrest⟩ := ha.cons_inv
      obtain ⟨behind, hr, hb, hba⟩ := read_returns_some token _ s hs hv
      obtain ⟨behind', hr', hb', hba'⟩ := read_returns_some other _ s' hs' hv'
      rw [hr, hr']
      exact .ok (congrArg some hother) ⟨hb, hb', tokens, others, hba, hba', hrest⟩

/-- A node that is refused is refused in every layout. -/
theorem unread_parallel {token other : Node} (h : other.placeless = token.placeless) :
    Parallel (id : Unit → Unit) (unread (some token)) (unread (some other)) := by
  obtain ⟨hkind, -, hleaf, -⟩ := Node.same_of_placeless h
  rintro s s' ⟨hs, hs', tokens, others, hv, hv', ha⟩
  by_cases ht : token.isLeaf = true
  · obtain ⟨behind, hr, hb, hba⟩ := unread_returns ht _ s hs hv
    obtain ⟨behind', hr', hb', hba'⟩ := unread_returns (hleaf.trans ht) _ s' hs' hv'
    rw [hr, hr']
    refine .ok rfl ⟨hb, hb', token :: tokens, other :: others, hba, hba', ?_⟩
    exact List.cons_eq_cons.mpr ⟨h, ha⟩
  · have hnot : token.isLeaf = false := by simpa using ht
    simp only [unread, lift, TokenStream.unread_some_of_not_isLeaf hnot,
      TokenStream.unread_some_of_not_isLeaf (hleaf.trans hnot)]
    exact .error (congrArg SyntaxCause.compositePushback hkind)

/-- A test does not look at positions. -/
def Placefree (test : Node → Bool) : Prop :=
  ∀ node other : Node, other.placeless = node.placeless → test other = test node

theorem isKind_placefree (kind : Kind) : Placefree (isKind kind) := by
  intro node other h
  rw [isKind, isKind, (Node.same_of_placeless h).1]

theorem isBinary_placefree (text : String) : Placefree (isBinary text) := by
  intro node other h
  obtain ⟨hkind, htext, -⟩ := Node.same_of_placeless h
  rw [isBinary, isBinary, hkind, htext]

theorem acceptIf_uniform {test : Node → Bool} (ht : Placefree test) :
    Uniform (acceptIf test) (acceptIf test) := by
  refine read_uniform.bindOption (.pure rfl) ?_
  intro token other h
  simp only [ht token other h]
  by_cases hp : test token = true
  · simp only [hp, if_true]
    exact .pure (congrArg some h)
  · simp only [hp, Bool.false_eq_true, if_false]
    exact (unread_parallel h).bind fun _ _ _ => .pure rfl

theorem accept_uniform (kind : Kind) : Uniform (accept kind) (accept kind) :=
  acceptIf_uniform (isKind_placefree kind)

theorem acceptBinary_uniform (text : String) : Uniform (acceptBinary text) (acceptBinary text) :=
  acceptIf_uniform (isBinary_placefree text)

theorem expectIf_parallel {test : Node → Bool} (ht : Placefree test) (expected : String) :
    Parallel Node.placeless (expectIf test expected) (expectIf test expected) := by
  refine read_uniform.bindOption (fun _ _ _ => .error rfl) ?_
  intro token other h
  simp only [ht token other h]
  by_cases hp : test token = true
  · simp only [hp, if_true]
    exact .pure h
  · simp only [hp, Bool.false_eq_true, if_false]
    refine (unread_parallel h).bind fun _ _ _ => .fail ?_
    exact congrArg (SyntaxCause.unexpectedToken expected) (Node.same_of_placeless h).2.2.2

theorem expect_parallel (kind : Kind) (expected : String) :
    Parallel Node.placeless (expect kind expected) (expect kind expected) :=
  expectIf_parallel (isKind_placefree kind) expected

theorem expectBinary_parallel (text expected : String) :
    Parallel Node.placeless (expectBinary text expected) (expectBinary text expected) :=
  expectIf_parallel (isBinary_placefree text) expected

theorem missingExpression_parallel {erase : α → γ} {after other : Node}
    (h : other.placeless = after.placeless) :
    Parallel erase (missingExpression after) (missingExpression other) :=
  .fail (congrArg SyntaxCause.missingExpression (Node.same_of_placeless h).2.2.2)

theorem followedBy_parallel {erase : α → γ} {final : β → δ} (kind : Kind)
    {rest other : Reader (Option α)} {join : Node → α → β}
    (h : Parallel (Option.map erase) rest other)
    (hj : ∀ token token' part part', token'.placeless = token.placeless →
      erase part' = erase part → final (join token' part') = final (join token part)) :
    Parallel (Option.map final) (followedBy kind rest join) (followedBy kind other join) := by
  refine (accept_uniform kind).bindOption (.pure rfl) ?_
  intro token token' ht
  refine h.bindOption ?_ ?_
  · exact (unread_parallel ht).bind fun _ _ _ => .pure rfl
  · intro part part' hp
    exact .pure (congrArg some (hj token token' part part' ht hp))

theorem many_parallel {erase : α → γ} {item other : Reader (Option α)}
    (h : Parallel (Option.map erase) item other) (limit : Nat) :
    Parallel (List.map erase) (many item limit) (many other limit) := by
  induction limit with
  | zero => exact .pure rfl
  | succ limit ih =>
      refine h.bindOption (.pure rfl) ?_
      intro first first' hfirst
      refine ih.bind fun others others' hothers => .pure ?_
      exact List.cons_eq_cons.mpr ⟨hfirst, hothers⟩

end Grammar

end MiniSmalltalk
