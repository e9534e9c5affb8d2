import MiniSmalltalk.Grammar.Reader

/-! # Productions

The grammar, one reader for each production. Expressions contain expressions, so every
production that reaches one takes the reader of the expressions inside it as an argument;
`limit` bounds how often a part may be repeated. `expressionUpTo` closes the circle: an
expression inside another one lies at least one token behind its beginning, so the number
of tokens bounds the depth. -/

namespace MiniSmalltalk.Grammar

/-! ### Tokens and literals -/

def identifier : Production := accept .identifier

def integer : Production := accept .integer

def stringLiteral : Production := accept .string

/-- One segment of a keyword selector. -/
def keyword : Production := accept .keyword

/-- A selector of one punctuation character. -/
def binarySelector : Production := accept .binary

/-- A message without arguments. -/
def unaryMessage : Production := accept .identifier

/-- An integer behind its sign: the sign joins the text and the span. -/
def negative (minus integer : Node) : Node :=
  { integer with
    text := some ("-" ++ integer.textOrEmpty)
    span := minus.span.merge integer.span }

/-- Reads `'-'? integer`. -/
def numberLiteral : Production := do
  let minus ← acceptBinary "-"
  match ← integer with
  | none =>
      unread minus
      return none
  | some number =>
      match minus with
      | some minus => return some (negative minus number)
      | none => return some number

/-- Reads `numberLiteral | stringLiteral`. -/
def literal : Production := do
  match ← numberLiteral with
  | some number => return some number
  | none => stringLiteral

/-! ### Blocks -/

/-- Reads `'|' identifier* '|'`. Two bars with nothing between them declare nothing. -/
def temporaries (limit : Nat) : Production := do
  match ← acceptBinary "|" with
  | none => return none
  | some opening =>
      let names ← many identifier limit
      let closing ← expectBinary "|" "`|` after temporaries declaration"
      let declared := (Node.bare .temporaries opening.span).appendAll names
      return some { declared with span := opening.span.merge closing.span }

/-- Reads `':' identifier`. -/
def blockArgument : Production := do
  match ← accept .colon with
  | none => return none
  | some _ =>
      let name ← expect .identifier "identifier after `:`"
      return some name

/-- The parameters of a block, which a bar ends. -/
def blockArguments (limit : Nat) : Production := do
  match ← many blockArgument limit with
  | [] => return none
  | names =>
      let _ ← expectBinary "|" "`|` after block arguments"
      return some ((Node.bare .blockArguments .origin).appendAll names)

/-- Reads `'^' expression`. -/
def returnStatement (expression : Production) : Production := do
  match ← accept .answer with
  | none => return none
  | some caret =>
      match ← expression with
      | some value => return some (caret.append value)
      | none => missingExpression caret

/-- A dot and the expression behind it. A dot that ends the statements is consumed too. -/
def nextStatement (expression : Production) : Production := do
  match ← accept .dot with
  | none => return none
  | some _ => expression

/-- A single statement stands for itself. -/
def sequence : List Node → Option Node
  | [] => none
  | [only] => some only
  | several => some ((Node.bare .statements .origin).appendAll several)

/-- Reads `returnStatement '.'? | expression ('.' expression)* '.'?`. -/
def statements (limit : Nat) (expression : Production) : Production := do
  match ← returnStatement expression with
  | some statement =>
      let _ ← accept .dot
      return some statement
  | none =>
      match ← expression with
      | none => return none
      | some first =>
          let others ← many (nextStatement expression) limit
          return sequence (first :: others)

/-- Reads `(blockArguments '|')? temporaries? statements?`. Always matches; temporaries that declare
nothing leave no node. -/
def blockBody (limit : Nat) (expression : Production) : Production := do
  let arguments ← blockArguments limit
  let declared ← temporaries limit
  let body ← statements limit expression
  let parts := arguments.toList ++ (declared.filter fun node => !node.isLeaf).toList ++ body.toList
  return some ((Node.bare .block .origin).appendAll parts)

/-- Reads `'[' blockBody ']'`. -/
def blockConstructor (limit : Nat) (expression : Production) : Production := do
  match ← accept .leftSquareBracket with
  | none => return none
  | some opening =>
      let body ← blockBody limit expression
      let closing ← expect .rightSquareBracket "`]` at the end of a block"
      let block := body.getD (.bare .block opening.span)
      return some { block with span := opening.span.merge closing.span }

/-! ### Receivers and messages -/

/-- Reads `'(' expression ')'`, of which only the expression remains. -/
def parenthesised (expression : Production) : Production := do
  match ← accept .leftParenthesis with
  | none => return none
  | some opening =>
      match ← expression with
      | none => missingExpression opening
      | some inner =>
          let _ ← expect .rightParenthesis "`)` after a parenthesised expression"
          return some inner

/-- Reads `identifier | literal | blockConstructor | parenthesised`. -/
def primary (limit : Nat) (expression : Production) : Production := do
  match ← identifier with
  | some name => return some name
  | none =>
      match ← literal with
      | some value => return some value
      | none =>
          match ← blockConstructor limit expression with
          | some block => return some block
          | none => parenthesised expression

/-- Reads `binarySelector primary`. A selector without argument is given back. -/
def binaryMessage (limit : Nat) (expression : Production) : Production :=
  followedBy .binary (primary limit expression) Node.append

/-- Reads `keyword primary`. A keyword without argument is given back. -/
def keywordSegment (limit : Nat) (expression : Production) : Reader (Option (Node × Node)) :=
  followedBy .keyword (primary limit expression) Prod.mk

/-- A keyword message with one segment more: the selectors are joined and the argument comes
last. -/
def addSegment (message : Node) (segment : Node × Node) : Node :=
  { message with
    text := some (message.textOrEmpty ++ segment.1.textOrEmpty)
    span := message.span.merge segment.1.span }.append segment.2

/-- Reads `keywordSegment+`. -/
def keywordMessage (limit : Nat) (expression : Production) : Production := do
  match ← keywordSegment limit expression with
  | none => return none
  | some first =>
      let others ← many (keywordSegment limit expression) limit
      return some (others.foldl addSegment (first.1.append first.2))

/-- A non-empty run `unaryMessage* binaryMessage* keywordMessage?`. -/
def messages (limit : Nat) (expression : Production) : Production := do
  let unary ← many unaryMessage limit
  let binary ← many (binaryMessage limit expression) limit
  let last ← keywordMessage limit expression
  match unary ++ binary ++ last.toList with
  | [] => return none
  | run => return some ((Node.bare .messages .origin).appendAll run)

/-- Reads `';' messages`. A semicolon without messages behind it is given back. -/
def cascade (limit : Nat) (expression : Production) : Production :=
  followedBy .semicolon (messages limit expression) fun _ run => run

/-- Reads `primary messages? (';' messages)*`. Every run of messages is a child of its own. -/
def basicExpression (limit : Nat) (expression : Production) : Production := do
  match ← primary limit expression with
  | none => return none
  | some receiver =>
      let run ← messages limit expression
      let cascaded ← many (cascade limit expression) limit
      return some ((Node.bare .expression .origin).appendAll (receiver :: (run.toList ++ cascaded)))

/-- Reads `identifier ':=' expression`. The sign becomes the parent of the name and the value. -/
def assignment (expression : Production) : Production := do
  match ← identifier with
  | none => return none
  | some name =>
      match ← accept .assignment with
      | none =>
          unread (some name)
          return none
      | some sign =>
          match ← expression with
          | none => missingExpression sign
          | some value => return some ((sign.append name).append value)

/-- Reads `assignment | basicExpression`, given a reader for the expressions inside. -/
def expressionStep (limit : Nat) (expression : Production) : Production := do
  match ← assignment expression with
  | some node => return some node
  | none => basicExpression limit expression

/-- Expressions that contain expressions at most `limit` deep. -/
def expressionUpTo : Nat → Production
  | 0 => return none
  | limit + 1 => expressionStep (limit + 1) (expressionUpTo limit)

end MiniSmalltalk.Grammar
