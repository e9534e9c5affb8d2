import MiniSmalltalk.Proofs.Evaluation.Cascade
import MiniSmalltalk.Proofs.Grammar.Heredity
import MiniSmalltalk.Proofs.Grammar.Layout
import MiniSmalltalk.Proofs.Session.Safety

/-! # Cascades as statements

A source that is a cascade can be replaced by one that names the receiver of the last message of
the first run and sends that message and every further run to the name. Nobody can tell the
difference who does not look at the name or at positions. -/

namespace MiniSmalltalk

open Eval Grammar

/-! ### Layout has no influence -/

/-- The view without positions. -/
def View.anywhere : View := ⟨fun _ => .origin, fun _ => false⟩

/-- The view without positions and without one name. -/
def View.hiding (name : String) : View := ⟨fun _ => .origin, fun other => other == name⟩

theorem evalUpTo_layout {first second : Node} (h : first.placeless = second.placeless)
    (name : String) (depth : Nat) (frame : FrameId) (machine : Machine) :
    (View.hiding name).result (View.hiding name).value (evalUpTo depth first frame machine) =
      (View.hiding name).result (View.hiding name).value (evalUpTo depth second frame machine) := by
  have hseen : ∀ node : Node,
      View.anywhere.result View.anywhere.value (evalUpTo depth node frame machine) =
        evalUpTo depth node.placeless frame (View.anywhere.machine machine) :=
    fun node => (evalUpTo_seen .anywhere depth node.avoids_nothing frame machine
      (.of_holding machine.avoids_nothing)).1.symm
  have hcomp : ∀ result, (View.hiding name).result (View.hiding name).value
      (View.anywhere.result View.anywhere.value result) =
        (View.hiding name).result (View.hiding name).value result :=
    fun result => View.result_result (.hiding name) .anywhere result
  rw [← hcomp, hseen, h, ← hseen, hcomp]

/-! ### What two interpretations have in common -/

/-- The same value up to positions, or failures with the same cause. -/
def Outcome.Agrees (name : String) : Outcome → Outcome → Prop
  | .value first, .value second =>
      (View.hiding name).value first = (View.hiding name).value second
  | .failure first, .failure second =>
      ∃ fault fault', first.cause = .runtime fault ∧ second.cause = .runtime fault' ∧
        fault.cause = fault'.cause
  | _, _ => False

/-- Two interpretations differ in nothing but a name and positions. -/
structure Interpretation.Agrees (name : String) (first second : Interpretation) : Prop where
  outcome : first.outcome.Agrees name second.outcome
  transcript : first.transcript = second.transcript
  notices : first.machine.notices.map (View.hiding name).notice =
    second.machine.notices.map (View.hiding name).notice
  heap : (View.hiding name).heap first.machine.heap = (View.hiding name).heap second.machine.heap

instance (outcome : Outcome) : Decidable (outcome = .tooDeep) :=
  match outcome with
  | .value _ => isFalse nofun
  | .failure _ => isFalse nofun
  | .tooDeep => isTrue rfl

theorem conclude_ne_tooDeep {file : SourceFile} {result : EStateM.Result Halt Machine Value} :
    (Interpretation.conclude file result).outcome ≠ .tooDeep ↔ Settled result := by
  cases result with
  | ok value behind => simp [Interpretation.conclude, Settled]
  | error halt behind => cases halt <;> simp [Interpretation.conclude, Settled]

theorem conclude_agrees {name : String} (file file' : SourceFile)
    {first second : EStateM.Result Halt Machine Value} (hs : Settled first)
    (h : (View.hiding name).result (View.hiding name).value first =
      (View.hiding name).result (View.hiding name).value second) :
    (Interpretation.conclude file first).Agrees name (.conclude file' second) := by
  cases first with
  | ok value behind =>
      cases second with
      | error halt behind' => cases h
      | ok value' behind' =>
          obtain ⟨hvalue, hmachine⟩ := EStateM.Result.ok.inj h
          exact ⟨hvalue, congrArg (·.transcript.contents) hmachine,
            congrArg Machine.notices hmachine, congrArg Machine.heap hmachine⟩
  | error halt behind =>
      cases second with
      | ok value' behind' => cases h
      | error halt' behind' =>
          obtain ⟨hhalt, hmachine⟩ := EStateM.Result.error.inj h
          cases halt with
          | tooDeep => exact absurd rfl (hs behind)
          | fault fault =>
              cases halt' with
              | tooDeep => cases hhalt
              | fault fault' =>
                  have hcause := congrArg RuntimeFault.cause (Halt.fault.inj hhalt)
                  exact ⟨⟨fault, fault', rfl, rfl, hcause⟩,
                    congrArg (·.transcript.contents) hmachine,
                    congrArg Machine.notices hmachine, congrArg Machine.heap hmachine⟩

/-! ### The trees of a cascade -/

theorem names_of_leaf {token : Node} (h : token.isLeaf = true) :
    ∀ name ∈ token.names, token.kind = .identifier ∧ token.textOrEmpty = name := by
  have hchildren : token.children = [] := by simpa [Node.isLeaf] using h
  intro name hm
  unfold Node.names at hm
  split at hm <;> simp_all [Node.child?, Block.names]

theorem derivation_avoids {phrase : Phrase} {tokens : List Node} {tree : Node}
    (h : Derivation phrase tokens tree) {name : String}
    (hn : ∀ token ∈ tokens, token.kind = .identifier → token.textOrEmpty ≠ name) :
    tree.Avoids (View.hiding name).hidden := by
  have hregion : Span.Region fun _ => True := ⟨fun _ _ => trivial⟩
  have hproper : ∀ token ∈ tokens,
      token.Proper (fun _ => True) (View.hiding name).hidden := by
    intro token hm
    refine ⟨trivial, fun other ho => ?_⟩
    obtain ⟨hkind, rfl⟩ := names_of_leaf (h.leaves token hm) other ho
    simpa [View.hiding] using hn token hm hkind
  exact (h.everywhere hregion hproper).mono fun node hp => hp.names

/-- A source is parsed to the tree that its tokens have, wherever they stand. -/
theorem parseProgram_of_alike {source : String} {tokens written : List Node} {tree : Node}
    (ht : tokenize source = .ok tokens) (ha : Alike written tokens)
    (hd : Derivation .program written tree) :
    ∃ laid : Node, laid.placeless = tree.placeless ∧ parseProgram source = .ok ⟨some laid, []⟩ := by
  obtain ⟨laid, hlaid, heq⟩ := hd.relaid tokens ha
  exact ⟨laid, heq, parseProgram_of_derivation ht hlaid⟩

/-- It is evaluated as that tree. -/
theorem interpret_of_alike {file : SourceFile} {tokens written : List Node} {tree : Node}
    (ht : tokenize file.text = .ok tokens) (ha : Alike written tokens)
    (hd : Derivation .program written tree) :
    ∃ laid : Node, laid.placeless = tree.placeless ∧ ∀ depth frame machine,
      interpret depth file frame machine =
        .conclude file (evalUpTo depth laid frame machine.quiet) := by
  obtain ⟨laid, heq, hparsed⟩ := parseProgram_of_alike ht ha hd
  exact ⟨laid, heq, fun depth frame machine => interpret_of_parsed hparsed depth frame machine⟩

namespace Grammar.Cascade.Parses

variable {cascade : Cascade} (h : cascade.Parses) {name : String}
  (hn : ∀ token ∈ cascade.written, token.kind = .identifier → token.textOrEmpty ≠ name)

include h hn

theorem start_avoids : cascade.start.Avoids (View.hiding name).hidden := by
  refine derivation_avoids h.start_derivation fun token hm => hn token ?_
  simp only [written, Piece.tokensOf, List.flatMap_append, List.mem_append] at hm ⊢
  rcases hm with hm | hm
  · exact .inl hm
  · exact .inr (.inl (.inl hm))

theorem sent_avoids : ∀ run ∈ Piece.values cascade.sent,
    run.kind = .messages ∧ run.Avoids (View.hiding name).hidden := by
  refine forall_values fun run hm => ?_
  have hrun := h.sent_derivation run hm
  refine ⟨messages_kind hrun, derivation_avoids hrun fun token ht => hn token ?_⟩
  simp only [written, Piece.tokensOf, List.flatMap_append, List.mem_append]
  rcases List.mem_cons.mp hm with rfl | hm
  · exact .inr (.inl (.inr (by simpa using ht)))
  · exact .inr (.inr (List.mem_flatMap.mpr ⟨run, hm, List.mem_append_right _ ht⟩))

end Grammar.Cascade.Parses

/-- In a root frame, a cascade and the statements that name the receiver of the last message of
its first run come to an end together. They come to the same value or the same failure, show the
same text, give the same warnings and leave the same bindings apart from the name. -/
theorem cascade_unfolds (cascade : Cascade) (hc : cascade.Parses) (name : String)
    (hname : ∀ token ∈ cascade.written, token.kind = .identifier → token.textOrEmpty ≠ name)
    (file file' : SourceFile) (tokens tokens' : List Node)
    (ht : tokenize file.text = .ok tokens) (ha : Alike cascade.written tokens)
    (ht' : tokenize file'.text = .ok tokens') (ha' : Alike (cascade.unfolded name) tokens')
    (machine : Machine) (hm : machine.Avoids fun other => other == name) (frame : FrameId)
    (hroot : machine.heap.isRoot frame = true)
    (hnil : ∀ depth behind,
      evaluate depth (some cascade.start) (some frame) machine.quiet ≠ .ok .nil behind) :
    ((∃ depth, (interpret depth file frame machine).outcome ≠ .tooDeep) ↔
      ∃ depth, (interpret depth file' frame machine).outcome ≠ .tooDeep) ∧
    ∀ depth depth', (interpret depth file frame machine).outcome ≠ .tooDeep →
      (interpret depth' file' frame machine).outcome ≠ .tooDeep →
      (interpret depth file frame machine).Agrees name (interpret depth' file' frame machine) := by
  obtain ⟨laid, hlaid, hinterpret⟩ := interpret_of_alike ht ha hc.tree_derivation
  obtain ⟨laid', hlaid', hinterpret'⟩ := interpret_of_alike ht' ha' (hc.statements_derivation name)
  have hhidden : (View.hiding name).hidden name = true := by simp [View.hiding]
  have htree : cascade.tree = .cascade cascade.receiver.value
      (Piece.values cascade.before ++ [cascade.last.value]) (Piece.values cascade.runs) := by
    simp [Cascade.tree, Piece.values]
  obtain ⟨hiff, hagrees⟩ := @cascade_agrees frame name machine.quiet (.hiding name) hhidden hm hroot
    _ _ _ _ (hc.start_avoids hname) hnil (hc.sent_avoids hname) _ _ htree rfl
  have hsettled : ∀ depth, Settled (evalUpTo depth laid frame machine.quiet) ↔
      Settled (evalUpTo depth cascade.tree frame machine.quiet) := by
    intro depth
    rw [← @settled_result _ _ (.hiding name) (View.hiding name).value,
      evalUpTo_layout hlaid, settled_result]
  have hsettled' : ∀ depth, Settled (evalUpTo depth laid' frame machine.quiet) ↔
      Settled (evalUpTo depth (cascade.statements name) frame machine.quiet) := by
    intro depth
    rw [← @settled_result _ _ (.hiding name) (View.hiding name).value,
      evalUpTo_layout hlaid', settled_result]
  simp only [hinterpret, hinterpret', conclude_ne_tooDeep, hsettled, hsettled']
  refine ⟨hiff, ?_⟩
  intro depth depth' h h'
  refine conclude_agrees file file' ((hsettled depth).mpr h) ?_
  rw [evalUpTo_layout hlaid, evalUpTo_layout hlaid']
  exact hagrees depth depth' h h'

/-- `'a' printString printNl ; printString ; , 'b'` -/
def Grammar.Cascade.quoted : Cascade where
  receiver := ⟨[.leaf .string "a" .origin], .leaf .string "a" .origin⟩
  before := [⟨[.nameToken "printString"], .nameToken "printString"⟩]
  last := ⟨[.nameToken "printNl"], .nameToken "printNl"⟩
  runs := [
    ⟨[.nameToken "printString"], .compose .messages [.nameToken "printString"]⟩,
    ⟨[.leaf .binary "," .origin, .leaf .string "b" .origin],
      .compose .messages [(Node.leaf .binary "," .origin).atop [.leaf .string "b" .origin]]⟩]

theorem Grammar.Cascade.quoted_parses : quoted.Parses := by
  have hstring : ∀ text, Derivation .primary [.leaf .string text .origin]
      (.leaf .string text .origin) := fun _ => .string ⟨rfl, rfl⟩
  have hunary : ∀ name, OneMessage [.nameToken name] (.nameToken name) :=
    fun _ => .unary ⟨rfl, rfl⟩
  have hcomma : OneMessage [.leaf .binary "," .origin, .leaf .string "b" .origin]
      ((Node.leaf .binary "," .origin).atop [.leaf .string "b" .origin]) :=
    .binary (.binaryMessage ⟨rfl, rfl⟩ (hstring "b"))
  refine .of_ordered (hstring "a") ?_ ?_ ?_ ?_
  · simp [quoted, hunary]
  · simp [quoted, Piece.values, Precedes, Node.nameToken, Node.leaf]
  · simp [quoted]
  · simp [quoted, (hunary _).run, hcomma.run]

theorem cascade_unfolds_quoted :
    (interpret 9 ⟨"cascade", "'a' printString printNl ; printString ; , 'b'"⟩ 0
        .initial).outcome ≠ .tooDeep ∧
      (interpret 9 ⟨"cascade", "'a' printString printNl ; printString ; , 'b'"⟩ 0
        .initial).Agrees "t" (interpret 9 ⟨"statements",
          "t := 'a' printString . t printNl . t printString . t , 'b'"⟩ 0 .initial) := by
  obtain ⟨tokens, ht, ha⟩ : ∃ tokens,
      tokenize "'a' printString printNl ; printString ; , 'b'" = .ok tokens ∧
        Alike Cascade.quoted.written tokens :=
    ⟨[.leaf .string "a" ⟨0, 3⟩, .leaf .identifier "printString" ⟨4, 15⟩,
      .leaf .identifier "printNl" ⟨16, 23⟩, .leaf .semicolon ";" ⟨24, 25⟩,
      .leaf .identifier "printString" ⟨26, 37⟩, .leaf .semicolon ";" ⟨38, 39⟩,
      .leaf .binary "," ⟨40, 41⟩, .leaf .string "b" ⟨42, 45⟩], rfl, rfl⟩
  obtain ⟨tokens', ht', ha'⟩ : ∃ tokens,
      tokenize "t := 'a' printString . t printNl . t printString . t , 'b'" = .ok tokens ∧
        Alike (Cascade.quoted.unfolded "t") tokens :=
    ⟨[.leaf .identifier "t" ⟨0, 1⟩, .bare .assignment ⟨2, 4⟩, .leaf .string "a" ⟨5, 8⟩,
      .leaf .identifier "printString" ⟨9, 20⟩, .leaf .dot "." ⟨21, 22⟩,
      .leaf .identifier "t" ⟨23, 24⟩, .leaf .identifier "printNl" ⟨25, 32⟩,
      .leaf .dot "." ⟨33, 34⟩, .leaf .identifier "t" ⟨35, 36⟩,
      .leaf .identifier "printString" ⟨37, 48⟩, .leaf .dot "." ⟨49, 50⟩,
      .leaf .identifier "t" ⟨51, 52⟩, .leaf .binary "," ⟨53, 54⟩, .leaf .string "b" ⟨55, 58⟩],
      rfl, rfl⟩
  have hends : (interpret 9 ⟨"cascade", "'a' printString printNl ; printString ; , 'b'"⟩ 0
      .initial).outcome ≠ .tooDeep := by decide +kernel
  refine ⟨hends, (cascade_unfolds .quoted Cascade.quoted_parses "t" ?_ _ _ _ _ ht ha ht' ha'
    .initial Machine.holding_initial 0 rfl ?_).2 9 9 hends (by decide +kernel)⟩
  · simp [Cascade.quoted, Cascade.written, Cascade.behind, Node.nameToken, Node.leaf,
      Node.textOrEmpty]
  · intro depth behind h
    have hnil : evalUpTo depth Cascade.quoted.start 0 Machine.initial.quiet = .ok .nil behind := h
    obtain ⟨last, hquoted⟩ : ∃ last,
        evalUpTo 9 Cascade.quoted.start 0 Machine.initial.quiet = .ok (.string "'a'") last :=
      ⟨_, rfl⟩
    have heq := evalUpTo_eq_of_settled (hnil ▸ settled_ok _ _) (hquoted ▸ settled_ok _ _)
    simp [hnil, hquoted] at heq

end MiniSmalltalk
