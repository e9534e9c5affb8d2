import MiniSmalltalk.Token.Scan

/-! # Token streams

A stream hands out the tokens of a source one by one and takes tokens back. Tokens that
were given back are handed out again first, the latest one before the others.

A character that begins no token is passed over once it has been reported. A literal or
comment without end uses up the source, and the same fault is reported from then on. -/

namespace MiniSmalltalk

/-- Where reading stands, the literal or comment found without end, the tokens given back,
and whether iteration over the stream has ended in a fault. -/
structure TokenStream where
  cursor : Cursor
  opening : Option Opening
  pending : List Node
  failed : Bool

namespace TokenStream

def ofString (source : String) : TokenStream := ⟨Cursor.ofString source, none, [], false⟩

/-- The byte offset of the next character to be scanned. -/
def offset (s : TokenStream) : Nat := s.cursor.position.offset

def line (s : TokenStream) : UInt32 := s.cursor.position.line

def column (s : TokenStream) : UInt32 := s.cursor.position.column

/-- A bound on the number of tokens still to come. -/
def size (s : TokenStream) : Nat := s.pending.length + s.cursor.rest.length

def fault (s : TokenStream) (cause : LexicalCause) (span : Span) : LexicalFault :=
  ⟨cause, span, s.line, s.column⟩

def unclosed (s : TokenStream) (opening : Opening) : LexicalFault :=
  s.fault opening.cause ⟨opening.start, s.offset⟩

def scan : EStateM LexicalFault TokenStream (Option Node) := fun s =>
  match Token.scan s.cursor with
  | .finished cursor => .ok none { s with cursor }
  | .token token queued cursor =>
      .ok (some token) { s with cursor, pending := queued.toList ++ s.pending }
  | .unknown character span cursor =>
      let behind := { s with cursor }
      .error (behind.fault (.unknownCharacter character) span) behind
  | .unclosed opening cursor =>
      let behind := { s with cursor, opening := some opening }
      .error (behind.unclosed opening) behind

/-- Hands out the next token, or none at the end of the source. -/
def read : EStateM LexicalFault TokenStream (Option Node) := fun s =>
  match s.pending with
  | token :: pending => .ok (some token) { s with pending }
  | [] =>
      match s.opening with
      | some opening => .error (s.unclosed opening) s
      | none => scan s

/-- Takes a token back. Taking back nothing does nothing, and a node with children is
refused. -/
def unread (token : Option Node) : EStateM LexicalFault TokenStream Unit := fun s =>
  match token with
  | none => .ok () s
  | some token =>
      if token.isLeaf then .ok () { s with pending := token :: s.pending }
      else .error (s.fault (.compositePushback token.kind) token.span) s

theorem read_of_pending_cons {s : TokenStream} {token : Node} {pending : List Node}
    (h : s.pending = token :: pending) : read s = .ok (some token) { s with pending } := by
  simp [read, h]

@[simp] theorem unread_none (s : TokenStream) : unread none s = .ok () s := rfl

theorem unread_some_of_isLeaf {token : Node} (h : token.isLeaf = true) (s : TokenStream) :
    unread (some token) s = .ok () { s with pending := token :: s.pending } := by
  simp [unread, h]

theorem unread_some_of_not_isLeaf {token : Node} (h : token.isLeaf = false) (s : TokenStream) :
    unread (some token) s = .error (s.fault (.compositePushback token.kind) token.span) s := by
  simp [unread, h]

/-- Like `read`, but nothing comes any more once a fault has been reported. -/
def next : EStateM LexicalFault TokenStream (Option Node) := fun s =>
  if s.failed then .ok none s
  else
    match read s with
    | .ok token s => .ok token s
    | .error fault s => .error fault { s with failed := true }

/-- At most `limit` tokens of an iteration, with the fault that ended it. -/
def drainUpTo : Nat → TokenStream → List Node × Option LexicalFault
  | 0, _ => ([], none)
  | limit + 1, s =>
      match next s with
      | .ok none _ => ([], none)
      | .error fault _ => ([], some fault)
      | .ok (some token) s =>
          let (tokens, fault) := drainUpTo limit s
          (token :: tokens, fault)

/-- All tokens of an iteration, with the fault that ended it. -/
def drain (s : TokenStream) : List Node × Option LexicalFault := drainUpTo (s.size + 1) s

/-- The word for what a stream is in the middle of. -/
def stateName (s : TokenStream) : String :=
  match s.opening with
  | none => "Start"
  | some (.string _) => "String"
  | some (.comment _) => "Comment"

/-- A stream in four lines. -/
def summary (s : TokenStream) : String :=
  "Lexer \x7b\n" ++
    s!"\tpos: {s.cursor.position.index},\n" ++
    s!"\tline: {s.line}, column: {s.column},\n" ++
    s!"\tstate: {s.stateName}, pending: {s.pending.length}\n" ++
    "\x7d"

end TokenStream

/-- The tokens of a source, or its first lexical fault. -/
def tokenize (source : String) : Except LexicalFault (List Node) :=
  match (TokenStream.ofString source).drain with
  | (tokens, none) => .ok tokens
  | (_, some fault) => .error fault

end MiniSmalltalk
