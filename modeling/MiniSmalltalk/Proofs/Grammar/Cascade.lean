import MiniSmalltalk.Proofs.Grammar.Derivation

/-! # Cascades and statements

A cascade can be written as statements: the receiver of the last message of its first run gets a
name, and that message and every further run are sent to the name. This module writes both down
and derives them from the grammar. -/

namespace MiniSmalltalk

namespace Node

/-- A receiver and the messages of at most one run. -/
def sending (receiver : Node) : List Node → Node
  | [] => compose .expression [receiver]
  | message :: messages => compose .expression [receiver, compose .messages (message :: messages)]

/-- The run of some messages, if there are any. -/
def runOf : List Node → List Node
  | [] => []
  | message :: messages => [compose .messages (message :: messages)]

/-- A receiver, the messages of its first run, if it has any, and further runs. -/
def chain (receiver : Node) (messages runs : List Node) : Node :=
  compose .expression (receiver :: (runOf messages ++ runs))

/-- A receiver, the messages of its first run and further runs. -/
def cascade (receiver : Node) (messages runs : List Node) : Node :=
  compose .expression (receiver :: compose .messages messages :: runs)

theorem chain_nil (receiver : Node) (messages : List Node) :
    chain receiver messages [] = sending receiver messages := by
  cases messages <;> rfl

theorem chain_eq_cascade (receiver : Node) {messages : List Node} (h : messages ≠ [])
    (runs : List Node) : chain receiver messages runs = cascade receiver messages runs := by
  obtain ⟨message, others, rfl⟩ := List.exists_cons_of_ne_nil h
  rfl

def nameToken (name : String) : Node := leaf .identifier name .origin

def signToken : Node := bare .assignment .origin

def naming (name : String) (value : Node) : Node := signToken.atop [nameToken name, value]

/-- Sends a run to what a name stands for. -/
def sendingTo (name : String) (run : Node) : Node := compose .expression [nameToken name, run]

/-- A name for an expression, and runs that are sent to it one after the other. -/
def unfolding (name : String) (start : Node) (runs : List Node) : Node :=
  compose .statements (naming name start :: runs.map (sendingTo name))

end Node

namespace Grammar

/-! ### Single messages -/

inductive OneMessage : List Node → Node → Prop where
  | unary {name : Node} : Terminal .identifier name → OneMessage [name] name
  | binary {tokens : List Node} {message : Node} : Derivation .binaryMessage tokens message →
      OneMessage tokens message
  | keyword {segments : List (Piece Node)} : segments ≠ [] →
      (∀ piece ∈ segments, Derivation .keywordSegment piece.tokens piece.value) →
      OneMessage (Piece.tokensOf segments) (.joined (Piece.values segments))

/-- Which message may come in front of which: the unary ones are first, and a keyword message is
last. -/
def Precedes (first second : Node) : Prop :=
  first.kind = .identifier ∨ first.kind = .binary ∧ second.kind ≠ .identifier

theorem binaryMessage_kind {tokens : List Node} {message : Node}
    (h : Derivation .binaryMessage tokens message) : message.kind = .binary := by
  cases h with
  | binaryMessage hs _ => exact hs.kind_eq

theorem messages_kind {tokens : List Node} {run : Node} (h : Derivation .messages tokens run) :
    run.kind = .messages := by
  cases h
  rfl

theorem keywordPart_kind {segments : List Node} :
    ∀ message ∈ Node.keywordPart segments, message.kind = .keyword := by
  intro message hm
  cases segments with
  | nil => cases hm
  | cons first others =>
      obtain rfl := List.mem_singleton.mp hm
      rfl

theorem compose_inj {kind kind' : Kind} {parts parts' : List Node}
    (h : Node.compose kind parts = Node.compose kind' parts') : parts = parts' := by
  have hchildren := congrArg Node.children h
  exact (List.map_inj_right fun _ _ => Option.some.inj).mp hchildren

/-- The messages of a run are in order. -/
theorem ordered_of_derivation {tokens messages : List Node}
    (h : Derivation .messages tokens (.compose .messages messages)) :
    messages.Pairwise Precedes := by
  generalize ht : Node.compose .messages messages = tree at h
  cases h with
  | @messages unary binary segments hu hb _ _ =>
      obtain rfl := compose_inj ht
      have hbinary : ∀ message ∈ Piece.values binary, message.kind = .binary := by
        intro message hm
        obtain ⟨piece, hp, rfl⟩ := List.mem_map.mp hm
        exact binaryMessage_kind (hb piece hp)
      have hbehind : (Piece.values binary ++ Node.keywordPart (Piece.values segments)).Pairwise
          Precedes := by
        refine List.pairwise_append.mpr ⟨?_, ?_, ?_⟩
        · refine List.pairwise_iff_forall_sublist.mpr ?_
          intro first second hsub
          have hfirst := hbinary first (hsub.subset (by simp))
          have hsecond := hbinary second (hsub.subset (by simp))
          exact .inr ⟨hfirst, by simp [hsecond]⟩
        · cases Piece.values segments <;> simp [Node.keywordPart]
        · intro first hf second hs
          exact .inr ⟨hbinary first hf, by simp [keywordPart_kind second hs]⟩
      refine List.pairwise_append.mpr ⟨?_, hbehind, ?_⟩
      · refine List.pairwise_iff_forall_sublist.mpr ?_
        intro first second hsub
        exact .inl (hu first (hsub.subset (by simp))).kind_eq
      · intro first hf second _
        exact .inl (hu first hf).kind_eq

/-- Messages in order are unary ones, binary ones and the segments of a keyword message. -/
theorem split_ordered {messages : List (Piece Node)}
    (hm : ∀ message ∈ messages, OneMessage message.tokens message.value)
    (ho : (Piece.values messages).Pairwise Precedes) :
    ∃ (unary : List Node) (binary segments : List (Piece Node)),
      (∀ name ∈ unary, Terminal .identifier name) ∧
      (∀ piece ∈ binary, Derivation .binaryMessage piece.tokens piece.value) ∧
      (∀ piece ∈ segments, Derivation .keywordSegment piece.tokens piece.value) ∧
      Piece.tokensOf messages = unary ++ (Piece.tokensOf binary ++ Piece.tokensOf segments) ∧
      Piece.values messages =
        unary ++ (Piece.values binary ++ Node.keywordPart (Piece.values segments)) := by
  induction messages with
  | nil => exact ⟨[], [], [], by simp, by simp, by simp, rfl, rfl⟩
  | cons message messages ih =>
      obtain ⟨hfirst, hothers⟩ := List.pairwise_cons.mp ho
      obtain ⟨unary, binary, segments, hu, hb, hs, htokens, hvalues⟩ :=
        ih (fun other hmem => hm other (by simp [hmem])) hothers
      obtain ⟨tokens, value⟩ := message
      have hone := hm ⟨tokens, value⟩ (by simp)
      simp only at hone hfirst
      cases hone with
      | unary hn =>
          refine ⟨value :: unary, binary, segments, ?_, hb, hs, ?_, ?_⟩
          · exact List.forall_mem_cons.mpr ⟨hn, hu⟩
          · simp [htokens]
          · simp [hvalues]
      | binary hd =>
          -- Nothing unary can follow, so there are no unary messages at all.
          have hnone : unary = [] := by
            refine List.eq_nil_iff_forall_not_mem.mpr fun name hname => ?_
            have hmem : name ∈ Piece.values messages := by simp [hvalues, hname]
            rcases hfirst name hmem with hk | ⟨-, hk⟩
            · exact absurd hk (by simp [binaryMessage_kind hd])
            · exact hk (hu name hname).kind_eq
          subst hnone
          refine ⟨[], ⟨tokens, value⟩ :: binary, segments, by simp, ?_, hs, ?_, ?_⟩
          · exact List.forall_mem_cons.mpr ⟨hd, hb⟩
          · simp [htokens]
          · simp [hvalues]
      | @keyword parts hne hp =>
          -- Nothing at all can follow.
          have hnone : messages = [] := by
            refine List.eq_nil_iff_forall_not_mem.mpr fun other hother => ?_
            have hmem : other.value ∈ Piece.values messages := List.mem_map_of_mem hother
            rcases hfirst other.value hmem with hk | ⟨hk, -⟩ <;> cases hk
          subst hnone
          refine ⟨[], [], parts, by simp, by simp, hp, by simp, ?_⟩
          obtain ⟨first, rest, rfl⟩ := List.exists_cons_of_ne_nil hne
          rfl

theorem messages_of_ordered {messages : List (Piece Node)} (hne : messages ≠ [])
    (hm : ∀ message ∈ messages, OneMessage message.tokens message.value)
    (ho : (Piece.values messages).Pairwise Precedes) :
    Derivation .messages (Piece.tokensOf messages)
      (.compose .messages (Piece.values messages)) := by
  obtain ⟨unary, binary, segments, hu, hb, hs, htokens, hvalues⟩ := split_ordered hm ho
  rw [htokens, hvalues]
  refine .messages hu hb hs ?_
  rcases unary with _ | ⟨name, unary⟩
  · rcases binary with _ | ⟨piece, binary⟩
    · rcases segments with _ | ⟨piece, segments⟩
      · exact absurd (List.map_eq_nil_iff.mp hvalues) hne
      · simp
    · simp
  · simp

theorem OneMessage.run {tokens : List Node} {message : Node} (h : OneMessage tokens message) :
    Derivation .messages tokens (.compose .messages [message]) := by
  have hrun := @messages_of_ordered [⟨tokens, message⟩] (by simp) (by simpa using h)
    (by simp [Piece.values])
  simpa [Piece.values] using hrun

/-! ### Cascades -/

/-- The parts of a cascade: a receiver, the messages of the first run with the last one apart,
and the further runs. -/
structure Cascade where
  receiver : Piece Node
  before : List (Piece Node)
  last : Piece Node
  runs : List (Piece Node)

namespace Cascade

variable (cascade : Cascade)

/-- The tokens of runs, each behind some other tokens. -/
def behind (front : List Node) (runs : List (Piece Node)) : List Node :=
  runs.flatMap fun run => front ++ run.tokens

/-- `P m1 … mn ; R2 ; … ; Rk` -/
def written : List Node :=
  cascade.receiver.tokens ++ (Piece.tokensOf (cascade.before ++ [cascade.last]) ++
    behind [.leaf .semicolon ";" .origin] cascade.runs)

def tree : Node :=
  .cascade cascade.receiver.value (Piece.values (cascade.before ++ [cascade.last]))
    (Piece.values cascade.runs)

/-- The tree of `P m1 … m(n-1)`. -/
def start : Node := .sending cascade.receiver.value (Piece.values cascade.before)

/-- The last message of the first run, as a run of its own, and the further runs. -/
def sent : List (Piece Node) :=
  ⟨cascade.last.tokens, .compose .messages [cascade.last.value]⟩ :: cascade.runs

/-- `t := P m1 … m(n-1) . t mn . t R2 . … . t Rk` -/
def unfolded (name : String) : List Node :=
  .nameToken name :: .signToken :: (cascade.receiver.tokens ++
    (Piece.tokensOf cascade.before ++
      behind [.leaf .dot "." .origin, .nameToken name] cascade.sent))

def statements (name : String) : Node :=
  .unfolding name cascade.start (Piece.values cascade.sent)

/-- The parts are what they are called, and together they are one expression. -/
structure Parses : Prop where
  receiver : Derivation .primary cascade.receiver.tokens cascade.receiver.value
  message : ∀ message ∈ cascade.before ++ [cascade.last],
    OneMessage message.tokens message.value
  runs_ne : cascade.runs ≠ []
  run : ∀ run ∈ cascade.runs, Derivation .messages run.tokens run.value
  expression : Derivation .expression cascade.written cascade.tree

end Cascade

/-- An expression alone is a program. -/
theorem program_of_expression {tokens : List Node} {tree : Node}
    (h : Derivation .expression tokens tree) : Derivation .program tokens tree := by
  have hprogram := @Derivation.statements _ _ _ [] h (by simp) .absent
  simpa [Node.statementsOf] using hprogram

/-- A receiver, messages in order and further runs are an expression. -/
theorem chain_derivation {receiver : Piece Node} {messages runs : List (Piece Node)}
    (hr : Derivation .primary receiver.tokens receiver.value)
    (hm : ∀ message ∈ messages, OneMessage message.tokens message.value)
    (ho : (Piece.values messages).Pairwise Precedes)
    (hruns : ∀ run ∈ runs, Derivation .messages run.tokens run.value) :
    Derivation .expression
      (receiver.tokens ++ (Piece.tokensOf messages ++
        Cascade.behind [.leaf .semicolon ";" .origin] runs))
      (.chain receiver.value (Piece.values messages) (Piece.values runs)) := by
  have hcascade : ∀ run ∈ runs,
      Derivation .cascade (.leaf .semicolon ";" .origin :: run.tokens) run.value :=
    fun run hmem => .cascade ⟨rfl, rfl⟩ (hruns run hmem)
  let cascades : List (Piece Node) :=
    runs.map fun run => ⟨.leaf .semicolon ";" .origin :: run.tokens, run.value⟩
  cases messages with
  | nil =>
      have hsend := @Derivation.send _ _ none cascades hr (by simp)
        (by simpa [cascades] using hcascade)
      simpa [cascades, Node.chain, Node.runOf, Cascade.behind, Piece.tokensOf, Piece.values,
        List.flatMap_map, Function.comp_def] using hsend
  | cons first others =>
      let run : Piece Node := ⟨Piece.tokensOf (first :: others),
        .compose .messages (Piece.values (first :: others))⟩
      have hrun := messages_of_ordered (by simp) hm ho
      have hsend := @Derivation.send _ _ (some run) cascades hr (by rintro piece ⟨⟩; exact hrun)
        (by simpa [cascades] using hcascade)
      simpa [run, cascades, Node.chain, Node.runOf, Cascade.behind, Piece.tokensOf, Piece.values,
        List.flatMap_map, Function.comp_def] using hsend

/-- The first run of an expression with a cascade is a run by itself, whether or not a semicolon
stands in front of it. -/
theorem first_run {tokens : List Node} {receiver run : Node} {runs : List Node}
    (h : Derivation .expression tokens (.compose .expression (receiver :: run :: runs))) :
    ∃ words, Derivation .messages words run := by
  generalize ht : Node.compose .expression (receiver :: run :: runs) = tree at h
  cases h with
  | assignment _ hs _ =>
      have hkind := congrArg Node.kind ht
      simp [Node.compose, Node.atop, hs.kind_eq] at hkind
  | @send _ _ first cascades _ hr hc =>
      obtain ⟨-, hparts⟩ := List.cons.inj (compose_inj ht)
      cases first with
      | some piece =>
          obtain ⟨rfl, -⟩ := List.cons.inj hparts
          exact ⟨_, hr piece rfl⟩
      | none =>
          cases cascades with
          | nil => cases hparts
          | cons piece cascades =>
              obtain ⟨rfl, -⟩ := List.cons.inj hparts
              have hcascade := hc piece (by simp)
              generalize piece.tokens = words at hcascade
              cases hcascade with
              | cascade _ hrun => exact ⟨_, hrun⟩

namespace Cascade.Parses

/-- Messages in order and further runs parse as a cascade. -/
theorem of_ordered {cascade : Cascade}
    (receiver : Derivation .primary cascade.receiver.tokens cascade.receiver.value)
    (message : ∀ message ∈ cascade.before ++ [cascade.last],
      OneMessage message.tokens message.value)
    (ordered : (Piece.values (cascade.before ++ [cascade.last])).Pairwise Precedes)
    (runs_ne : cascade.runs ≠ [])
    (run : ∀ run ∈ cascade.runs, Derivation .messages run.tokens run.value) :
    cascade.Parses := by
  refine ⟨receiver, message, runs_ne, run, ?_⟩
  have hchain := chain_derivation receiver message ordered run
  rwa [Node.chain_eq_cascade _ (by simp [Piece.values])] at hchain

variable {cascade : Cascade} (h : cascade.Parses)

include h

theorem ordered : (Piece.values (cascade.before ++ [cascade.last])).Pairwise Precedes := by
  obtain ⟨words, hrun⟩ := first_run h.expression
  exact ordered_of_derivation hrun

theorem tree_derivation : Derivation .program cascade.written cascade.tree :=
  program_of_expression h.expression

theorem start_derivation :
    Derivation .expression (cascade.receiver.tokens ++ Piece.tokensOf cascade.before)
      cascade.start := by
  have hbefore : (Piece.values cascade.before).Pairwise Precedes := by
    have hall := h.ordered
    rw [Piece.values, List.map_append] at hall
    exact (List.pairwise_append.mp hall).1
  have hchain := @chain_derivation _ _ [] h.receiver
    (fun message hm => h.message message (List.mem_append_left _ hm)) hbefore (by simp)
  rwa [behind, List.flatMap_nil, List.append_nil, Piece.values_nil, Node.chain_nil] at hchain

theorem sent_derivation : ∀ run ∈ cascade.sent, Derivation .messages run.tokens run.value := by
  have hlast := h.message cascade.last (by simp)
  exact List.forall_mem_cons.mpr ⟨hlast.run, h.run⟩

theorem statements_derivation (name : String) :
    Derivation .program (cascade.unfolded name) (cascade.statements name) := by
  have hname : Terminal .identifier (.nameToken name) := ⟨rfl, rfl⟩
  have hsign : Terminal .assignment .signToken := ⟨rfl, rfl⟩
  have hassignment := Derivation.assignment hname hsign h.start_derivation
  have hstatement : ∀ run ∈ cascade.sent, Derivation .nextStatement
      (.leaf .dot "." .origin :: .nameToken name :: run.tokens)
      (.sendingTo name run.value) := by
    intro run hm
    have hsend := @Derivation.send _ _ (some run) [] (.name hname)
      (by rintro piece ⟨⟩; exact h.sent_derivation run hm) (by simp)
    refine .nextStatement ⟨rfl, rfl⟩ ?_
    simpa [Node.sendingTo] using hsend
  have hprogram := @Derivation.statements _ _ _
    (cascade.sent.map fun run =>
      ⟨.leaf .dot "." .origin :: .nameToken name :: run.tokens, .sendingTo name run.value⟩)
    hassignment (by simpa using hstatement) .absent
  simpa [unfolded, statements, Node.unfolding, Node.statementsOf, Node.naming, behind, sent,
    Piece.tokensOf, Piece.values, List.flatMap_map, Function.comp_def] using hprogram

end Cascade.Parses

end Grammar

end MiniSmalltalk
