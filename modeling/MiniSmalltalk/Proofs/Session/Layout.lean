import MiniSmalltalk.Proofs.Grammar.Uniformity
import MiniSmalltalk.Proofs.Session.Cascade
import MiniSmalltalk.Proofs.Token.Tiling

/-! # Layout of sources

Sources with the same tokens are interpreted alike, whatever stands between the tokens: they come
to the same value or failure, show the same text and give the same notices, up to positions. -/

namespace MiniSmalltalk

open Eval Grammar

/-! ### What is the same up to positions -/

/-- Failures in the same phase, with the same cause. -/
inductive FailureCause.Alike : FailureCause → FailureCause → Prop where
  | lexical {fault other : LexicalFault} : other.cause = fault.cause →
      Alike (.lexical fault) (.lexical other)
  | grammatical {fault other : SyntaxFault} : other.cause = fault.cause →
      Alike (.grammatical fault) (.grammatical other)
  | runtime {fault other : RuntimeFault} : other.cause = fault.cause →
      Alike (.runtime fault) (.runtime other)

/-- Values that are the same up to positions, or failures with the same cause. -/
inductive Outcome.Alike : Outcome → Outcome → Prop where
  | value {value other : Value} : View.anywhere.value other = View.anywhere.value value →
      Alike (.value value) (.value other)
  | failure {failure other : Failure} : failure.cause.Alike other.cause →
      Alike (.failure failure) (.failure other)
  | tooDeep : Alike .tooDeep .tooDeep

/-- Two interpretations differ in nothing but positions. -/
structure Interpretation.Alike (first second : Interpretation) : Prop where
  outcome : first.outcome.Alike second.outcome
  transcript : second.transcript = first.transcript
  notices : second.machine.notices.map View.anywhere.notice =
    first.machine.notices.map View.anywhere.notice
  heap : View.anywhere.heap second.machine.heap = View.anywhere.heap first.machine.heap

theorem FailureCause.ofSyntax_alike {fault other : SyntaxFault} (h : other.cause = fault.cause) :
    (ofSyntax fault).Alike (ofSyntax other) := by
  unfold ofSyntax
  rw [h]
  split
  · exact .lexical rfl
  · exact .grammatical h

/-- What has come to the same up to positions is concluded alike. -/
theorem conclude_alike (file file' : SourceFile) {first second : EStateM.Result Halt Machine Value}
    (h : View.anywhere.result View.anywhere.value second =
      View.anywhere.result View.anywhere.value first) :
    (Interpretation.conclude file first).Alike (.conclude file' second) := by
  cases first with
  | ok value behind =>
      cases second with
      | error halt behind' => cases h
      | ok value' behind' =>
          obtain ⟨hvalue, hmachine⟩ := EStateM.Result.ok.inj h
          exact ⟨.value hvalue, congrArg (·.transcript.contents) hmachine,
            congrArg Machine.notices hmachine, congrArg Machine.heap hmachine⟩
  | error halt behind =>
      cases second with
      | ok value' behind' => cases h
      | error halt' behind' =>
          obtain ⟨hhalt, hmachine⟩ := EStateM.Result.error.inj h
          have htranscript := congrArg (·.transcript.contents) hmachine
          have hnotices := congrArg Machine.notices hmachine
          have hheap := congrArg Machine.heap hmachine
          cases halt with
          | tooDeep =>
              cases halt' with
              | fault fault' => cases hhalt
              | tooDeep => exact ⟨.tooDeep, htranscript, hnotices, hheap⟩
          | fault fault =>
              cases halt' with
              | tooDeep => cases hhalt
              | fault fault' =>
                  have hcause := congrArg RuntimeFault.cause (Halt.fault.inj hhalt)
                  exact ⟨.failure (.runtime hcause), htranscript, hnotices, hheap⟩

/-! ### Interpreting what is the same up to positions -/

theorem evaluate_alike {program other : Option Node}
    (hp : other.map Node.placeless = program.map Node.placeless) {machine machine' : Machine}
    (hm : View.anywhere.machine machine' = View.anywhere.machine machine) (depth : Nat)
    (frame : FrameId) :
    View.anywhere.result View.anywhere.value (evaluate depth other (some frame) machine') =
      View.anywhere.result View.anywhere.value (evaluate depth program (some frame) machine) := by
  have hseen : ∀ (tree : Option Node) (start : Machine),
      View.anywhere.result View.anywhere.value (evaluate depth tree (some frame) start) =
        evaluate depth (tree.map Node.placeless) (some frame) (View.anywhere.machine start) :=
    fun tree start => (@evaluate_seen .anywhere depth tree (fun node _ => node.avoids_nothing)
      (some frame) start (.of_holding start.avoids_nothing)).1.symm
  rw [hseen, hseen, hp, hm]

theorem unparsedNotices_alike {source other : String} {parsed parsed' : Parsed}
    (h : Alike parsed.rest parsed'.rest) :
    (unparsedNotices other parsed').map View.anywhere.notice =
      (unparsedNotices source parsed).map View.anywhere.notice := by
  unfold unparsedNotices
  cases hr : parsed.rest with
  | nil =>
      rw [hr] at h
      rw [h.nil_inv]
  | cons token rest =>
      rw [hr] at h
      obtain ⟨token', rest', hr', -, -⟩ := h.cons_inv
      rw [hr']
      rfl

theorem interpret_alike {file other : SourceFile}
    (h : ParsedAlike (parseProgram file.text) (parseProgram other.text)) (depth : Nat)
    (frame : FrameId) (machine : Machine) :
    (interpret depth file frame machine).Alike (interpret depth other frame machine) := by
  cases hp : parseProgram file.text with
  | error fault =>
      cases hp' : parseProgram other.text with
      | ok parsed' =>
          rw [hp, hp'] at h
          cases h
      | error fault' =>
          rw [hp, hp'] at h
          cases h with
          | error hcause =>
              simp only [interpret, hp, hp']
              exact ⟨.failure (FailureCause.ofSyntax_alike hcause), rfl, rfl, rfl⟩
  | ok parsed =>
      cases hp' : parseProgram other.text with
      | error fault' =>
          rw [hp, hp'] at h
          cases h
      | ok parsed' =>
          rw [hp, hp'] at h
          cases h with
          | ok hprogram hrest =>
              rw [interpret_of_parsed hp, interpret_of_parsed hp']
              refine conclude_alike file other (evaluate_alike hprogram ?_ depth frame)
              exact congrArg (Machine.mk _ _ _) (unparsedNotices_alike hrest)

/-! ### Tokens -/

/-- A token has nothing but its kind, its text and a position. -/
theorem placeless_of_leaf {token : Node} (h : token.isLeaf = true) :
    token.placeless = ⟨token.word.1, token.word.2, [], .origin⟩ := by
  refine Node.eq_of_parts (by simp [Node.word]) (by simp [Node.word]) ?_ (by simp)
  simp [Node.children_of_isLeaf h]

theorem alike_of_leaves {tokens others : List Node} (ht : ∀ token ∈ tokens, token.isLeaf = true)
    (ho : ∀ token ∈ others, token.isLeaf = true)
    (h : others.map Node.word = tokens.map Node.word) : Alike tokens others := by
  have hplaceless : ∀ {found : List Node}, (∀ token ∈ found, token.isLeaf = true) →
      found.map Node.placeless =
        (found.map Node.word).map fun word => ⟨word.1, word.2, [], .origin⟩ := by
    intro found hf
    rw [List.map_map]
    exact List.map_congr_left fun token hm => placeless_of_leaf (hf token hm)
  rw [Alike, hplaceless ht, hplaceless ho, h]

theorem alike_of_words {source other : String} {tokens others : List Node}
    (ht : tokenize source = .ok tokens) (ho : tokenize other = .ok others)
    (h : others.map Node.word = tokens.map Node.word) : Alike tokens others := by
  have hleaf : ∀ {text : String} {found : List Node}, tokenize text = .ok found →
      ∀ token ∈ found, token.isLeaf = true := fun {text found} hf token hm =>
    (@Token.Tiled.tokens_spelled text [] _ _ (tiled_of_tokenize hf) rfl token hm).1
  exact alike_of_leaves (hleaf ht) (hleaf ho) h

/-- Sources whose tokens have the same kinds and texts are parsed to the same tree and leave the
same tokens over, or fail for the same cause, and they are run alike. -/
theorem layout_has_no_influence (source other : String) (tokens others : List Node)
    (ht : tokenize source = .ok tokens) (ho : tokenize other = .ok others)
    (h : others.map Node.word = tokens.map Node.word) :
    ParsedAlike (parseProgram source) (parseProgram other) ∧
      ∀ depth, (run depth source).Alike (run depth other) := by
  have hparsed := parseProgram_alike ht ho (alike_of_words ht ho h)
  refine ⟨hparsed, fun depth => ?_⟩
  exact @interpret_alike ⟨"", source⟩ ⟨"", other⟩ hparsed depth 0 .initial

theorem layout_has_no_influence_on_block :
    (run 9 "f:=[:a|a+1].f").outcome ≠ .tooDeep ∧
      (run 9 "f:=[:a|a+1].f").Alike (run 9 "f := [ :a | \"the next\" a + 1 ] .\nf") := by
  have ht : tokenize "f:=[:a|a+1].f" = .ok [.leaf .identifier "f" ⟨0, 1⟩,
      .bare .assignment ⟨1, 3⟩, .leaf .leftSquareBracket "[" ⟨3, 4⟩, .leaf .colon ":" ⟨4, 5⟩,
      .leaf .identifier "a" ⟨5, 6⟩, .leaf .binary "|" ⟨6, 7⟩, .leaf .identifier "a" ⟨7, 8⟩,
      .leaf .binary "+" ⟨8, 9⟩, .leaf .integer "1" ⟨9, 10⟩,
      .leaf .rightSquareBracket "]" ⟨10, 11⟩, .leaf .dot "." ⟨11, 12⟩,
      .leaf .identifier "f" ⟨12, 13⟩] := rfl
  have ho : tokenize "f := [ :a | \"the next\" a + 1 ] .\nf" = .ok [.leaf .identifier "f" ⟨0, 1⟩,
      .bare .assignment ⟨2, 4⟩, .leaf .leftSquareBracket "[" ⟨5, 6⟩, .leaf .colon ":" ⟨7, 8⟩,
      .leaf .identifier "a" ⟨8, 9⟩, .leaf .binary "|" ⟨10, 11⟩, .leaf .identifier "a" ⟨23, 24⟩,
      .leaf .binary "+" ⟨25, 26⟩, .leaf .integer "1" ⟨27, 28⟩,
      .leaf .rightSquareBracket "]" ⟨29, 30⟩, .leaf .dot "." ⟨31, 32⟩,
      .leaf .identifier "f" ⟨33, 34⟩] := rfl
  exact ⟨by decide +kernel, (layout_has_no_influence _ _ _ _ ht ho rfl).2 9⟩

end MiniSmalltalk
