import MiniSmalltalk.Grammar.Production

/-! # Programs

Every production can be run on its own; a program is read by the production for
statements, and the tokens it leaves over are kept. -/

namespace MiniSmalltalk

namespace Grammar

/-- The productions that a stream can be read with. -/
inductive Rule where
  | token
  | program
  | temporaries
  | blockConstructor
  | blockBody
  | blockArgument
  | statements
  | returnStatement
  | expression
  | assignment
  | basicExpression
  | identifier
  | primary
  | messages
  | unaryMessage
  | binaryMessage
  | binarySelector
  | binaryArgument
  | keywordMessage
  | keyword
  | keywordArgument
  | literal
  | numberLiteral
  | integer
  | stringLiteral
  deriving DecidableEq

/-- The reader of a production, given a bound and a reader for the expressions inside. -/
def Rule.readerWith (limit : Nat) (inner : Production) : Rule → Production
  | token => read
  | program => Grammar.statements limit inner
  | temporaries => Grammar.temporaries limit
  | blockConstructor => Grammar.blockConstructor limit inner
  | blockBody => Grammar.blockBody limit inner
  | blockArgument => Grammar.blockArgument
  | statements => Grammar.statements limit inner
  | returnStatement => Grammar.returnStatement inner
  | expression => inner
  | assignment => Grammar.assignment inner
  | basicExpression => Grammar.basicExpression limit inner
  | identifier => Grammar.identifier
  | primary => Grammar.primary limit inner
  | messages => Grammar.messages limit inner
  | unaryMessage => Grammar.unaryMessage
  | binaryMessage => Grammar.binaryMessage limit inner
  | binarySelector => Grammar.binarySelector
  | binaryArgument => Grammar.primary limit inner
  | keywordMessage => Grammar.keywordMessage limit inner
  | keyword => Grammar.keyword
  | keywordArgument => Grammar.primary limit inner
  | literal => Grammar.literal
  | numberLiteral => Grammar.numberLiteral
  | integer => Grammar.integer
  | stringLiteral => Grammar.stringLiteral

/-- Reads by a production. A stream of `n` tokens holds no more than `n` repetitions and no
more than `n` levels of expressions. -/
def Rule.reader (rule : Rule) : Production := fun s =>
  rule.readerWith (s.size + 1) (expressionUpTo (s.size + 1)) s

def remaining : Reader (List Node) := fun s => many read (s.size + 1) s

end Grammar

/-- A program, if there is one, and the tokens behind it. -/
structure Parsed where
  program : Option Node
  rest : List Node

/-- Reads a program and then everything that follows it. -/
def Grammar.parse : Grammar.Reader Parsed := do
  let program ← Rule.program.reader
  let rest ← remaining
  return ⟨program, rest⟩

def parseProgram (source : String) : Except SyntaxFault Parsed :=
  match Grammar.parse (TokenStream.ofString source) with
  | .ok parsed _ => .ok parsed
  | .error fault _ => .error fault

end MiniSmalltalk
