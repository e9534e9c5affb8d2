/-! # Kinds of nodes

Tokens and the constructs built from them share one set of kinds. -/

namespace MiniSmalltalk

/-- What a node stands for. The first fifteen are tokens, the others constructs. -/
inductive Kind where
  /-- A letter followed by letters and digits. -/
  | identifier
  /-- An identifier with a colon attached. -/
  | keyword
  /-- A selector of one punctuation character. -/
  | binary
  | colon
  | semicolon
  | dot
  | leftParenthesis
  | rightParenthesis
  | leftSquareBracket
  | rightSquareBracket
  /-- The caret `^` that gives back the value of a statement. -/
  | answer
  /-- The sign `:=`. -/
  | assignment
  /-- Text between double quotes. Comments are passed over and never become tokens. -/
  | comment
  /-- Text between ticks, where two ticks stand for one. -/
  | string
  /-- A run of digits; as a literal it may carry a minus sign. -/
  | integer
  /-- The declared names `| a b |`. -/
  | temporaries
  /-- Two or more expressions separated by dots. -/
  | statements
  /-- A block `[ :a | | t | … ]`. -/
  | block
  /-- The parameters `:a :b` of a block. -/
  | blockArguments
  /-- A receiver and the message runs sent to it. -/
  | expression
  /-- One run of messages. -/
  | messages
  deriving DecidableEq, Inhabited

namespace Kind

/-- The name under which a kind is printed in trees. -/
def name : Kind → String
  | identifier => "Identifier"
  | keyword => "Keyword"
  | binary => "Binary"
  | colon => "Colon"
  | semicolon => "Semicolon"
  | dot => "Dot"
  | leftParenthesis => "LeftParenthesis"
  | rightParenthesis => "RightParenthesis"
  | leftSquareBracket => "LeftSquareBracket"
  | rightSquareBracket => "RightSquareBracket"
  | answer => "Return"
  | assignment => "Assignment"
  | comment => "Comment"
  | string => "String"
  | integer => "Integer"
  | temporaries => "Temporaries"
  | statements => "Statements"
  | block => "BlockClosure"
  | blockArguments => "BlockArguments"
  | expression => "Expression"
  | messages => "Messages"

/-- The wording of a kind in reports. -/
def literal : Kind → String
  | identifier => "identifier"
  | keyword => "keyword"
  | binary => "binary selector"
  | colon => "`:`"
  | semicolon => "`;`"
  | dot => "`.`"
  | leftParenthesis => "`(`"
  | rightParenthesis => "`)`"
  | leftSquareBracket => "`[`"
  | rightSquareBracket => "`]`"
  | answer => "`^`"
  | assignment => "`:=`"
  | comment => "comment"
  | string => "string"
  | integer => "integer"
  | temporaries => "temporaries"
  | statements => "statements"
  | block => "block closure"
  | blockArguments => "block arguments"
  | expression => "expression"
  | messages => "messages"

/-- Constructs are built from tokens; everything else is one. -/
def isToken : Kind → Bool
  | temporaries | statements | block | blockArguments | expression | messages => false
  | _ => true

/-- Kinds whose text differs from token to token. -/
def carriesText : Kind → Bool
  | identifier | keyword | binary | string | integer => true
  | _ => false

def all : List Kind :=
  [identifier, keyword, binary, colon, semicolon, dot, leftParenthesis, rightParenthesis,
    leftSquareBracket, rightSquareBracket, answer, assignment, comment, string, integer,
    temporaries, statements, block, blockArguments, expression, messages]

def ofName? (name : String) : Option Kind := all.find? fun kind => kind.name == name

/-- Different kinds are printed under different names. -/
theorem name_inj {a b : Kind} (h : a.name = b.name) : a = b := by
  cases a <;> cases b <;> simp_all [name]

end Kind

end MiniSmalltalk
