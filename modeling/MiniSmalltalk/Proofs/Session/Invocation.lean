import MiniSmalltalk.Proofs.Evaluation.Declaration
import MiniSmalltalk.Proofs.Session.Stability

/-! # Calling blocks

A block literal declares parameters and temporaries and may have a body. Its value keeps the
frame in which it was evaluated. Every call binds the parameters by position and the temporaries
to nil in a frame of its own, whose parent is the frame that the block has kept. -/

namespace MiniSmalltalk

/-! ### Literals -/

namespace Grammar

/-- Tokens that declare parameters: a colon in front of every name, and a bar behind them all. -/
inductive ParameterNames : List Node → List String → Prop where
  | absent : ParameterNames [] []
  | present {pieces : List (Piece Node)} {bar : Node} : pieces ≠ [] →
      (∀ piece ∈ pieces, Parameter piece.tokens piece.value) → Selector "|" bar →
      ParameterNames (Piece.tokensOf pieces ++ [bar]) ((Piece.values pieces).map Node.textOrEmpty)

/-- Tokens that declare temporaries: names between two bars. -/
inductive TemporaryNames : List Node → List String → Prop where
  | absent : TemporaryNames [] []
  | present {opening closing : Node} {names : List Node} : Selector "|" opening →
      (∀ name ∈ names, Terminal .identifier name) → Selector "|" closing →
      TemporaryNames (opening :: (names ++ [closing])) (names.map Node.textOrEmpty)

/-- Tokens that are a block with the names of its parameters and temporaries, and the tree of its
body. -/
inductive BlockLiteral : List Node → List String → List String → Option Node → Prop where
  | mk {opening closing : Node} {tokens tokens' : List Node} {parameters temporaries : List String}
      {body : Option (Piece Node)} : Terminal .leftSquareBracket opening →
      ParameterNames tokens parameters → TemporaryNames tokens' temporaries →
      (∀ piece ∈ body, Derivation .program piece.tokens piece.value) →
      Terminal .rightSquareBracket closing →
      BlockLiteral (opening :: (tokens ++ (tokens' ++ (Piece.tokensOf body.toList ++ [closing]))))
        parameters temporaries (body.map Piece.value)

end Grammar

namespace Block

def declared (kind : Kind) (children : List Node) : List String :=
  ((lastOfKind kind children).map names).getD []

theorem lastOfKind_append (kind : Kind) (front back : List Node) :
    lastOfKind kind (front ++ back) = (lastOfKind kind back).or (lastOfKind kind front) := by
  simp [lastOfKind, List.find?_append]

theorem lastOfKind_eq_none {kind : Kind} {children : List Node}
    (h : ∀ child ∈ children, child.kind ≠ kind) : lastOfKind kind children = none := by
  simpa [lastOfKind] using h

theorem names_of_children {node : Node} {parts : List Node} (h : node.children = parts.map some) :
    names node = parts.map Node.textOrEmpty := by
  rw [names, h, List.filterMap_map]
  exact congrFun List.filterMap_eq_map parts

/-- The parts of a block are told apart by their kinds. -/
theorem ofNode_enclose {opening closing : Node} {arguments temporaries : List Node}
    {body : Option Node} (ha : ∀ child ∈ arguments, child.kind = .blockArguments)
    (ht : ∀ child ∈ temporaries, child.kind = .temporaries)
    (hb : ∀ child ∈ body, isBody child = true) (frame : FrameId) (identity : Nat) :
    ofNode (.enclose .block opening closing (arguments ++ (temporaries ++ body.toList))) frame
        identity =
      ⟨declared .blockArguments arguments, declared .temporaries temporaries, body, frame,
        opening.span.merge closing.span, identity⟩ := by
  have hchildren : (Node.enclose .block opening closing
      (arguments ++ (temporaries ++ body.toList))).children.filterMap id =
      arguments ++ (temporaries ++ body.toList) := by
    rw [Node.enclose, List.filterMap_map]
    exact List.filterMap_some
  have hkind : ∀ child ∈ body.toList,
      child.kind ≠ .blockArguments ∧ child.kind ≠ .temporaries := by
    simpa [isBody] using hb
  have harguments : lastOfKind .blockArguments (arguments ++ (temporaries ++ body.toList)) =
      lastOfKind .blockArguments arguments := by
    have htemporaries : lastOfKind .blockArguments temporaries = none :=
      lastOfKind_eq_none fun child hm => by simp [ht child hm]
    simp [lastOfKind_append, htemporaries, lastOfKind_eq_none fun child hm => (hkind child hm).1]
  have htemporaries : lastOfKind .temporaries (arguments ++ (temporaries ++ body.toList)) =
      lastOfKind .temporaries temporaries := by
    have harguments : lastOfKind .temporaries arguments = none :=
      lastOfKind_eq_none fun child hm => by simp [ha child hm]
    simp [lastOfKind_append, harguments, lastOfKind_eq_none fun child hm => (hkind child hm).2]
  have hbody : (arguments ++ (temporaries ++ body.toList)).reverse.find? isBody = body := by
    have hnone : (arguments ++ temporaries).reverse.find? isBody = none := by
      simp only [List.find?_eq_none, List.mem_reverse, List.forall_mem_append]
      exact ⟨fun child hm => by simp [isBody, ha child hm],
        fun child hm => by simp [isBody, ht child hm]⟩
    rw [← List.append_assoc, List.reverse_append, List.find?_append, hnone]
    cases body with
    | none => rfl
    | some child => simp [hb child rfl]
  simp only [ofNode, hchildren, harguments, htemporaries, hbody]
  rfl

end Block

namespace Grammar

theorem ParameterNames.exists_parameters {tokens : List Node} {names : List String}
    (h : ParameterNames tokens names) :
    ∃ arguments, Parameters tokens arguments ∧
      Block.declared .blockArguments arguments = names := by
  cases h with
  | absent => exact ⟨[], .absent, rfl⟩
  | present hne hp hb =>
      refine ⟨_, .present hne hp hb, ?_⟩
      exact Block.names_of_children rfl

theorem TemporaryNames.exists_temporaries {tokens : List Node} {names : List String}
    (h : TemporaryNames tokens names) :
    ∃ declarations, Temporaries tokens declarations ∧
      Block.declared .temporaries declarations = names := by
  cases h with
  | absent => exact ⟨[], .absent, rfl⟩
  | @present opening closing names ho hn hc =>
      by_cases hnil : names = []
      · subst hnil
        exact ⟨[], .none ho hc, rfl⟩
      · refine ⟨_, .present hnil ho hn hc, ?_⟩
        exact Block.names_of_children rfl

theorem Parameters.exists_names {tokens arguments : List Node} (h : Parameters tokens arguments) :
    ∃ names, ParameterNames tokens names := by
  cases h with
  | absent => exact ⟨[], .absent⟩
  | present hne hp hb => exact ⟨_, .present hne hp hb⟩

theorem Temporaries.exists_names {tokens declarations : List Node}
    (h : Temporaries tokens declarations) : ∃ names, TemporaryNames tokens names := by
  cases h with
  | absent => exact ⟨[], .absent⟩
  | none ho hc => exact ⟨[], @TemporaryNames.present _ _ [] ho (by simp) hc⟩
  | present _ ho hn hc => exact ⟨_, .present ho hn hc⟩

theorem Parameters.kind_eq {tokens arguments : List Node} (h : Parameters tokens arguments) :
    ∀ child ∈ arguments, child.kind = .blockArguments := by
  cases h <;> simp [Node.compose]

theorem Temporaries.kind_eq {tokens declarations : List Node}
    (h : Temporaries tokens declarations) :
    ∀ child ∈ declarations, child.kind = .temporaries := by
  cases h <;> simp [Node.enclose]

theorem isBody_of_shape {node : Node} (h : Shape .evaluated node) : Block.isBody node = true := by
  cases h with
  | atom hk => rcases hk with hk | hk | hk <;> simp [Block.isBody, hk]
  | answer hk | statements hk | assignment hk | expression hk | block hk =>
      simp [Block.isBody, hk]

/-- A block literal is read wherever it stands, and its value has the parts of the literal. -/
theorem BlockLiteral.read {tokens : List Node} {parameters temporaries : List String}
    {body : Option Node} (h : BlockLiteral tokens parameters temporaries body) {s : TokenStream}
    (hs : s.Plain) {rest : List Reading} (hv : s.ahead = tokens.map .ok ++ rest) :
    ∃ node behind, Rule.blockConstructor.reader s = .ok (some node) behind ∧
      behind.ahead = rest ∧ node.kind = .block ∧ ∀ frame identity,
        Block.ofNode node frame identity =
          ⟨parameters, temporaries, body, frame, node.span, identity⟩ := by
  cases h with
  | @mk opening closing front middle _ _ body ho hpar htmp hb hc =>
      obtain ⟨arguments, harguments, hparameters⟩ := hpar.exists_parameters
      obtain ⟨declarations, hdeclarations, htemporaries⟩ := htmp.exists_temporaries
      have hbegin : BeginAll .program body.toList := Derivation.beginAll (by simpa using hb)
      have hbody : ∀ child ∈ body.map Piece.value, Block.isBody child = true := by
        intro child hm
        obtain ⟨piece, hp, rfl⟩ := Option.map_eq_some_iff.mp hm
        exact isBody_of_shape (hb piece hp).shape
      have hvalues : Piece.values body.toList = (body.map Piece.value).toList := by
        cases body <;> rfl
      simp only [List.map_cons, List.map_append, List.map_nil, List.cons_append,
        List.append_assoc, List.nil_append] at hv
      have he : Enough (s.size + 1) (s.size + 1) s.ahead :=
        ⟨(enough_size s).repetitions, Nat.le_succ_of_le (enough_size s).levels⟩
      rw [hv] at he
      obtain ⟨behind, hr, -, hrest⟩ := blockConstructor_complete ho harguments hdeclarations hbegin
        (fun piece hp => (hb piece hp).completed) hc he s hs hv
      refine ⟨_, behind, hr, hrest, rfl, fun frame identity => ?_⟩
      rw [hvalues, Block.ofNode_enclose harguments.kind_eq hdeclarations.kind_eq hbody,
        hparameters, htemporaries]
      rfl

/-- Only block literals are read as blocks. -/
theorem exists_blockLiteral {s behind : TokenStream} (hs : s.Plain) {node : Node}
    (hr : Rule.blockConstructor.reader s = .ok (some node) behind) :
    ∃ tokens parameters temporaries body, BlockLiteral tokens parameters temporaries body ∧
      s.ahead = tokens.map .ok ++ behind.ahead := by
  have hlt := Nat.lt_succ_self s.size
  have hi := inner_expressionOver (return none) (return none) hlt hlt
  rw [← expressionUpTo_eq] at hi
  obtain ⟨-, tokens, hahead, -, hd⟩ := (blockConstructor_reads (hi.mono (Nat.le_succ _))
    s.length_tokensIn_ahead_le hlt hlt).of_ok hs rfl hr
  have hother : ∀ {token : Node} {kind : Kind} {later : List Reading}, Terminal kind token →
      kind ∉ [Kind.leftSquareBracket] → s.ahead ≠ .ok token :: later := by
    intro token kind later ht hk hview
    have hstop : Stops (isAnyOf [.leftSquareBracket]) s.ahead := hview ▸ ht.stops hk later
    obtain ⟨left, hnone, -, -⟩ := blockConstructor_returns_none (hstop.kind (by simp)) s hs rfl
    cases hr.symm.trans hnone
  cases hd with
  | block ho hpar htmp hb hc =>
      obtain ⟨parameters, hparameters⟩ := hpar.exists_names
      obtain ⟨temporaries, htemporaries⟩ := htmp.exists_names
      exact ⟨_, parameters, temporaries, _, .mk ho hparameters htemporaries hb hc, hahead⟩
  | name ht => exact absurd hahead (hother ht (by decide))
  | integer ht => exact absurd hahead (hother ht (by decide))
  | negative hm => exact absurd hahead (hother hm.toTerminal (by decide))
  | string ht => exact absurd hahead (hother ht (by decide))
  | parenthesised ho => exact absurd hahead (hother ho (by decide))

end Grammar

/-! ### Frames of calls -/

namespace Bindings

theorem lookup_bindAll_of_not_mem {name : String} {entries : Bindings}
    (h : name ∉ entries.map Prod.fst) (bindings : Bindings) :
    List.lookup name (bindings.bindAll entries) = List.lookup name bindings := by
  induction entries generalizing bindings with
  | nil => rfl
  | cons entry entries ih =>
      obtain ⟨hne, hothers⟩ : name ≠ entry.1 ∧ name ∉ entries.map Prod.fst := by simpa using h
      exact (ih hothers _).trans (lookup_bind_of_ne hne entry.2 bindings)

/-- Of several entries for a name, the last one counts. -/
theorem lookup_bindAll_last {name : String} {front back : Bindings} {value : Value}
    (h : name ∉ back.map Prod.fst) (bindings : Bindings) :
    List.lookup name (bindings.bindAll (front ++ (name, value) :: back)) = some value := by
  have hsplit : bindings.bindAll (front ++ (name, value) :: back) =
      ((bindings.bindAll front).bind name value).bindAll back := by
    simp [bindAll, List.foldl_append]
  rw [hsplit, lookup_bindAll_of_not_mem h, lookup_bind_self]

end Bindings

namespace Message

variable {block : Block} {arguments : List Value} (h : arguments.length = block.arity)

include h

theorem map_fst_zip_arguments :
    (block.arguments.zip arguments).map Prod.fst = block.arguments :=
  List.map_fst_zip (Nat.le_of_eq h.symm)

/-- A parameter is bound to the argument at its last position. -/
theorem lookup_callBindings_parameter {position : Nat} {name : String}
    (hn : block.arguments[position]? = some name)
    (hlast : ∀ later, position < later → block.arguments[later]? ≠ some name) :
    List.lookup name (callBindings block arguments) = arguments[position]? := by
  obtain ⟨hlt, rfl⟩ := List.getElem?_eq_some_iff.mp hn
  have hlt' : position < arguments.length := h ▸ hlt
  have hpairs : block.arguments.zip arguments =
      (block.arguments.zip arguments).take position ++
        (block.arguments[position], arguments[position]) ::
          (block.arguments.zip arguments).drop (position + 1) := by
    rw [← List.getElem_zip, ← List.drop_eq_getElem_cons, List.take_append_drop]
    rw [List.length_zip]
    omega
  have hbehind : block.arguments[position] ∉
      ((block.arguments.zip arguments).drop (position + 1)).map Prod.fst := by
    rw [List.map_drop, map_fst_zip_arguments h]
    intro hm
    obtain ⟨later, hl⟩ := List.getElem?_of_mem hm
    rw [List.getElem?_drop] at hl
    exact hlast _ (by omega) hl
  rw [callBindings, hpairs, ← List.append_assoc, Bindings.lookup_bindAll_last hbehind,
    List.getElem?_eq_getElem hlt']

/-- A temporary that is not also a parameter starts out as nil. -/
theorem lookup_callBindings_temporary {name : String} (hm : name ∈ block.temporaries)
    (hn : name ∉ block.arguments) :
    List.lookup name (callBindings block arguments) = some .nil := by
  have hothers : name ∉ (block.arguments.zip arguments).map Prod.fst := by
    rwa [map_fst_zip_arguments h]
  have hsplit : callBindings block arguments =
      (Bindings.bindAll [] (block.temporaries.map fun name => (name, Value.nil))).bindAll
        (block.arguments.zip arguments) :=
    List.foldl_append
  have hnil : (Bindings.bindAll [] (block.temporaries.map fun name => (name, Value.nil))).Holding
      (· = .nil) := by
    refine Bindings.Holding.bindAll (by simp [Bindings.Holding]) ?_
    simp [Bindings.Holding]
  rw [hsplit, Bindings.lookup_bindAll_of_not_mem hothers]
  have hsome := Bindings.isSome_lookup_bindAll name []
    (block.temporaries.map fun name => (name, Value.nil))
  obtain ⟨value, hvalue⟩ := Option.isSome_iff_exists.mp (hsome.trans (by simpa using hm))
  rw [hvalue, hnil.lookup hvalue]

end Message

/-- A machine has one frame more than another, the frame of a call. It has the parent given and
binds the parameters and the temporaries and nothing else: a parameter to the argument at its last
position, a temporary that is not a parameter to nil. -/
structure Machine.Enters (machine entered : Machine) (parent : FrameId)
    (parameters temporaries : List String) (arguments : List Value) : Prop where
  size : entered.heap.size = machine.heap.size + 1
  others : ∀ id, id ≠ machine.heap.size → entered.heap.frame? id = machine.heap.frame? id
  parent : entered.heap.parent? machine.heap.size = some (some parent)
  names : ∀ name, entered.heap.defines machine.heap.size name = true ↔
    name ∈ parameters ∨ name ∈ temporaries
  parameter : ∀ (position : Nat) (name : String), parameters[position]? = some name →
    (∀ later, position < later → parameters[later]? ≠ some name) →
    (entered.heap.bindings machine.heap.size).lookup name = arguments[position]?
  temporary : ∀ name ∈ temporaries, name ∉ parameters →
    (entered.heap.bindings machine.heap.size).lookup name = some .nil
  blocks : entered.blocks = machine.blocks
  transcript : entered.transcript = machine.transcript
  notices : entered.notices = machine.notices

namespace Block

/-- The machine that the body of a block is run on when it is called. -/
def entered (block : Block) (arguments : List Value) (machine : Machine) : Machine :=
  (machine.pushFrame (some block.frame) (Message.callBindings block arguments)).2

variable (block : Block) (arguments : List Value) (machine : Machine)

theorem frame?_entered : (block.entered arguments machine).heap.frame? machine.heap.size =
    some ⟨some block.frame, Message.callBindings block arguments⟩ :=
  machine.heap.frame?_push_self _

theorem enters (h : arguments.length = block.arity) :
    machine.Enters (block.entered arguments machine) block.frame block.arguments
      block.temporaries arguments := by
  have hframe := block.frame?_entered arguments machine
  have hbindings := Heap.bindings_of_frame? hframe
  refine ⟨machine.heap.size_push _, ?_, ?_, ?_, ?_, ?_, rfl, rfl, rfl⟩
  · intro id hid
    exact (Heap.frame?_push _ id).trans (if_neg hid)
  · rw [Heap.parent?, hframe]
    rfl
  · intro name
    rw [Heap.defines, hframe, or_comm]
    exact Message.isSome_lookup_callBindings h name
  · intro position name hn hlast
    rw [hbindings]
    exact Message.lookup_callBindings_parameter h hn hlast
  · intro name hm hn
    rw [hbindings]
    exact Message.lookup_callBindings_temporary h hm hn

end Block

/-- A call with as many arguments as there are parameters evaluates the body in the new frame. -/
theorem Message.call_of_length_eq {block : Block} {arguments : List Value}
    (h : arguments.length = block.arity) (depth : Nat) (span : Span) (machine : Machine) :
    call (evalUpTo depth) block arguments span machine =
      evaluate depth block.body (some machine.heap.size) (block.entered arguments machine) := by
  unfold call
  rw [if_pos h]
  cases block.body <;> rfl

theorem Message.call_of_length_ne {block : Block} {arguments : List Value}
    (h : arguments.length ≠ block.arity) (depth : Nat) (span : Span) (machine : Machine) :
    call (evalUpTo depth) block arguments span machine =
      .error (.fault ⟨.argumentCount block.arity arguments.length, span⟩) machine := by
  unfold call
  rw [if_neg h]
  rfl

theorem evalUpTo_block {node : Node} (h : node.kind = .block) (depth : Nat) (frame : FrameId)
    (machine : Machine) :
    evalUpTo (depth + 1) node frame machine =
      .ok (.block (.ofNode node frame machine.blocks))
        { machine with blocks := machine.blocks + 1 } := by
  simp only [evalUpTo_succ, Evaluator.step, h]
  rfl

open Grammar

/-- A block literal is read wherever it stands, and nothing but literals is read as a block. Its
value has the parameters and temporaries in the order of the source and the tree of the body, and
keeps the frame. A call with another number of arguments fails and leaves the machine as it was;
any other enters one new frame and gives what the body comes to in there, or nil. No call that is
made later in a run enters the same frame. -/
theorem blocks_bind_by_position :
    (∀ (s : TokenStream) (tokens : List Node) (parameters temporaries : List String)
        (body : Option Node) (rest : List Reading),
      Reachable s → BlockLiteral tokens parameters temporaries body →
      s.ahead = tokens.map .ok ++ rest →
      ∃ node behind, Rule.blockConstructor.reader s = .ok (some node) behind ∧
        behind.ahead = rest ∧
        ∀ (depth : Nat) (frame : FrameId) (machine : Machine), ∃ block : Block,
          evalUpTo (depth + 1) node frame machine =
            .ok (.block block) { machine with blocks := machine.blocks + 1 } ∧
          block.arguments = parameters ∧ block.temporaries = temporaries ∧ block.body = body ∧
          block.frame = frame ∧
          ∀ (depth : Nat) (arguments : List Value) (span : Span) (machine : Machine),
            (arguments.length ≠ parameters.length →
              Message.call (evalUpTo depth) block arguments span machine =
                .error (.fault ⟨.argumentCount parameters.length arguments.length, span⟩)
                  machine) ∧
            (arguments.length = parameters.length →
              machine.Enters (block.entered arguments machine) frame parameters temporaries
                arguments ∧
              Message.call (evalUpTo depth) block arguments span machine =
                evaluate depth body (some machine.heap.size) (block.entered arguments machine))) ∧
    (∀ (s behind : TokenStream) (node : Node), Reachable s →
      Rule.blockConstructor.reader s = .ok (some node) behind →
      ∃ tokens parameters temporaries body, BlockLiteral tokens parameters temporaries body ∧
        s.ahead = tokens.map .ok ++ behind.ahead) ∧
    ∀ (start : Machine) (tasks : List Task), start.heap.WellFormed → Feasible start tasks →
      ∀ (first second : Block) (arguments others : List Value) (machine later : Machine),
        Follows start tasks (first.entered arguments machine) later →
        machine.heap.size ≠ later.heap.size ∧
          (second.entered others later).heap.frame? machine.heap.size =
            later.heap.frame? machine.heap.size := by
  refine ⟨?_, fun s behind node hs hr => exists_blockLiteral hs.plain hr, ?_⟩
  · intro s tokens parameters temporaries body rest hs hliteral hv
    obtain ⟨node, behind, hr, hrest, hkind, hblock⟩ := hliteral.read hs.plain hv
    refine ⟨node, behind, hr, hrest, fun depth frame machine => ?_⟩
    refine ⟨_, evalUpTo_block hkind depth frame machine, ?_⟩
    rw [hblock]
    refine ⟨rfl, rfl, rfl, rfl, fun depth arguments span machine => ⟨fun hne => ?_, fun heq => ?_⟩⟩
    · exact Message.call_of_length_ne hne depth span machine
    · exact ⟨Block.enters _ arguments machine heq,
        Message.call_of_length_eq heq depth span machine⟩
  · intro start tasks hstart htasks first second arguments others machine later hfollows
    have hle := (hfollows.stable hstart htasks).2.size_le
    have hsize : (first.entered arguments machine).heap.size = machine.heap.size + 1 :=
      machine.heap.size_push _
    have hne : machine.heap.size ≠ later.heap.size := by omega
    exact ⟨hne, (Heap.frame?_push _ _).trans (if_neg hne)⟩

/-- A parameter that is declared twice and once more as a temporary, and a body that is absent. -/
theorem blocks_bind_by_position_repeated :
    (∃ node behind block, Rule.blockConstructor.reader (.ofString "[:x :x | |t x|]") =
        .ok (some node) behind ∧
      evalUpTo 1 node 0 .initial = .ok (.block block) { Machine.initial with blocks := 1 } ∧
      Message.call (evalUpTo 1) block [] ⟨0, 5⟩ .initial =
        .error (.fault ⟨.argumentCount 2 0, ⟨0, 5⟩⟩) .initial ∧
      let entered := block.entered [.string "a", .string "b"] .initial
      (entered.heap.bindings 1).lookup "x" = some (.string "b") ∧
        (entered.heap.bindings 1).lookup "t" = some .nil ∧
        Message.call (evalUpTo 1) block [.string "a", .string "b"] ⟨0, 5⟩ .initial =
          .ok .nil entered) ∧
    let block : Block := ⟨["x"], [], none, 0, ⟨0, 4⟩, 0⟩
    let entered := block.entered [.string "a"] .initial
    let later := (Task.interpret 20 ⟨"", "[:x | x] value: 'b'"⟩ 0).run entered
    later.heap.size = 3 ∧
      (block.entered [.string "c"] later).heap.frame? 1 = later.heap.frame? 1 := by
  obtain ⟨hread, -, hruns⟩ := blocks_bind_by_position
  refine ⟨?_, ?_⟩
  · have htokens : tokenize "[:x :x | |t x|]" = .ok [.leaf .leftSquareBracket "[" ⟨0, 1⟩,
        .leaf .colon ":" ⟨1, 2⟩, .leaf .identifier "x" ⟨2, 3⟩, .leaf .colon ":" ⟨4, 5⟩,
        .leaf .identifier "x" ⟨5, 6⟩, .leaf .binary "|" ⟨7, 8⟩, .leaf .binary "|" ⟨9, 10⟩,
        .leaf .identifier "t" ⟨10, 11⟩, .leaf .identifier "x" ⟨12, 13⟩,
        .leaf .binary "|" ⟨13, 14⟩, .leaf .rightSquareBracket "]" ⟨14, 15⟩] :=
      rfl
    have hparameters := @ParameterNames.present
      [⟨[.leaf .colon ":" ⟨1, 2⟩, .leaf .identifier "x" ⟨2, 3⟩], .leaf .identifier "x" ⟨2, 3⟩⟩,
        ⟨[.leaf .colon ":" ⟨4, 5⟩, .leaf .identifier "x" ⟨5, 6⟩], .leaf .identifier "x" ⟨5, 6⟩⟩]
      (.leaf .binary "|" ⟨7, 8⟩) (by simp)
      (by simpa using ⟨.mk ⟨rfl, rfl⟩ ⟨rfl, rfl⟩, .mk ⟨rfl, rfl⟩ ⟨rfl, rfl⟩⟩) ⟨⟨rfl, rfl⟩, rfl⟩
    have htemporaries := @TemporaryNames.present (.leaf .binary "|" ⟨9, 10⟩)
      (.leaf .binary "|" ⟨13, 14⟩)
      [.leaf .identifier "t" ⟨10, 11⟩, .leaf .identifier "x" ⟨12, 13⟩] ⟨⟨rfl, rfl⟩, rfl⟩
      (by simpa using ⟨⟨rfl, rfl⟩, ⟨rfl, rfl⟩⟩) ⟨⟨rfl, rfl⟩, rfl⟩
    have hliteral := @BlockLiteral.mk (.leaf .leftSquareBracket "[" ⟨0, 1⟩)
      (.leaf .rightSquareBracket "]" ⟨14, 15⟩) _ _ _ _ none ⟨rfl, rfl⟩ hparameters htemporaries
      (by simp) ⟨rfl, rfl⟩
    obtain ⟨node, behind, hr, -, hvalue⟩ := hread _ _ _ _ _ [] (.start "[:x :x | |t x|]") hliteral
      (by simpa using tokenize_eq_ok_iff.mp htokens)
    obtain ⟨block, hblock, -, -, -, -, hcalls⟩ := hvalue 0 0 .initial
    have henters := ((hcalls 1 [.string "a", .string "b"] ⟨0, 5⟩ .initial).2 rfl)
    refine ⟨node, behind, block, hr, hblock, (hcalls 1 [] ⟨0, 5⟩ .initial).1 (by decide), ?_, ?_,
      henters.2⟩
    · refine henters.1.parameter 1 "x" rfl fun later hlater => ?_
      rw [List.getElem?_eq_none hlater]
      simp
    · exact henters.1.temporary "t" (by decide) (by decide)
  · intro block entered later
    have hentered : entered.heap.WellFormed := by
      refine Heap.wellFormed_initial.push ?_ ?_
      · rintro above ⟨⟩
        decide
      · intro entry hm
        obtain rfl := List.mem_singleton.mp hm
        trivial
    have hfeasible : Feasible entered [.interpret 20 ⟨"", "[:x | x] value: 'b'"⟩ 0] := by
      refine ⟨?_, trivial⟩
      rintro id ⟨⟩
      decide +kernel
    have hlater : Passes entered [.interpret 20 ⟨"", "[:x | x] value: 'b'"⟩ 0] later :=
      .behind (.start later [])
    exact ⟨by decide +kernel, (hruns entered _ hentered hfeasible block block
      [.string "a"] [.string "c"] .initial later (.start hlater)).2⟩

end MiniSmalltalk
