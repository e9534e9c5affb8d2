import MiniSmalltalk.Source.Position
import MiniSmalltalk.Text.Quoted
import MiniSmalltalk.Token.Class
import MiniSmalltalk.Token.Fault

/-! # Scanning

A scan passes blanks and comments and then reads the one token that begins there. -/

namespace MiniSmalltalk

/-- A literal or comment whose end is missing, with the offset at which it begins. -/
inductive Opening where
  | string (start : Nat)
  | comment (start : Nat)
  deriving DecidableEq

namespace Opening

def start : Opening → Nat
  | string start => start
  | comment start => start

def cause : Opening → LexicalCause
  | string _ => .unterminatedString
  | comment _ => .unterminatedComment

end Opening

inductive Scan where
  /-- Nothing but blanks and comments was left. -/
  | finished (cursor : Cursor)
  /-- A token, and the token that `name:=` yields besides the name. -/
  | token (token : Node) (queued : Option Node) (cursor : Cursor)
  /-- A character that begins no token. -/
  | unknown (character : Char) (span : Span) (cursor : Cursor)
  /-- A literal or comment that runs to the end of the source. -/
  | unclosed (opening : Opening) (cursor : Cursor)

namespace Token

/-- A token of a single character, which is its text. -/
def single (kind : Kind) (p : Position) (c : Char) (cs : List Char) : Scan :=
  let stop := p.advance c
  .token (.leaf kind (String.singleton c) ⟨p.offset, stop.offset⟩) none ⟨cs, stop⟩

/-- A word is a name, a keyword if a colon follows it directly, and a name with an
assignment if `:=` does. -/
def word (p : Position) (c : Char) (cs : List Char) : Scan :=
  let name := c :: cs.takeWhile Char.isAlphanum
  let stop := p.advanceAll name
  match cs.dropWhile Char.isAlphanum with
  | ':' :: '=' :: rest =>
      let behind := stop.advanceAll [':', '=']
      .token (.leaf .identifier (String.ofList name) ⟨p.offset, stop.offset⟩)
        (some (.bare .assignment ⟨stop.offset, behind.offset⟩)) ⟨rest, behind⟩
  | ':' :: rest =>
      let behind := stop.advance ':'
      .token (.leaf .keyword (String.ofList (name ++ [':'])) ⟨p.offset, behind.offset⟩) none
        (Cursor.settle ⟨rest, behind⟩)
  | rest =>
      .token (.leaf .identifier (String.ofList name) ⟨p.offset, stop.offset⟩) none
        (Cursor.settle ⟨rest, stop⟩)

def digits (p : Position) (c : Char) (cs : List Char) : Scan :=
  let run := c :: cs.takeWhile Char.isDigit
  let stop := p.advanceAll run
  .token (.leaf .integer (String.ofList run) ⟨p.offset, stop.offset⟩) none
    (Cursor.settle ⟨cs.dropWhile Char.isDigit, stop⟩)

def quoted (p : Position) (c : Char) (cs : List Char) : Scan :=
  match Text.Quoted.split? cs with
  | some (text, rest) =>
      let stop := p.advanceAll (c :: (Text.Quoted.encode text ++ [Text.Quoted.tick]))
      .token (.leaf .string (String.ofList text) ⟨p.offset, stop.offset⟩) none
        (Cursor.settle ⟨rest, stop⟩)
  | none => .unclosed (.string p.offset) ⟨[], p.advanceAll (c :: cs)⟩

/-- A colon, or an assignment if `=` follows. -/
def colon (p : Position) (cs : List Char) : Scan :=
  match cs with
  | '=' :: rest =>
      let stop := p.advanceAll [':', '=']
      .token (.bare .assignment ⟨p.offset, stop.offset⟩) none ⟨rest, stop⟩
  | rest =>
      let stop := p.advance ':'
      .token (.leaf .colon ":" ⟨p.offset, stop.offset⟩) none (Cursor.settle ⟨rest, stop⟩)

/-- The caret, whose token has no text. -/
def caret (p : Position) (cs : List Char) : Scan :=
  let stop := p.advance '^'
  .token (.bare .answer ⟨p.offset, stop.offset⟩) none ⟨cs, stop⟩

def read (p : Position) (c : Char) (cs : List Char) : Scan :=
  if c = '^' then caret p cs
  else if c = ';' then single .semicolon p c cs
  else if c = '.' then single .dot p c cs
  else if c = '(' then single .leftParenthesis p c cs
  else if c = ')' then single .rightParenthesis p c cs
  else if c = '[' then single .leftSquareBracket p c cs
  else if c = ']' then single .rightSquareBracket p c cs
  else if c = Text.Quoted.tick then quoted p c cs
  else if c = ':' then colon p cs
  else if isBinary c then single .binary p c cs
  else if c.isAlpha then word p c cs
  else if c.isDigit then digits p c cs
  else .unknown c ⟨p.offset, (p.advance c).offset⟩ ⟨cs, p.advance c⟩

/-- Passes blanks and comments up to the next token. Inside a comment, `opened` is the
offset at which it begins. -/
def scanFrom (opened : Option Nat) (p : Position) : List Char → Scan
  | [] =>
      match opened with
      | some start => .unclosed (.comment start) ⟨[], p⟩
      | none => .finished ⟨[], p⟩
  | c :: cs =>
      match opened with
      | some start =>
          if c = quotationMark then scanFrom none (p.advance c) cs
          else scanFrom (some start) (p.advance c) cs
      | none =>
          if c = quotationMark then scanFrom (some p.offset) (p.advance c) cs
          else if isBlank c then scanFrom none (p.advance c) cs
          else read p c cs

def scan (cursor : Cursor) : Scan := scanFrom none cursor.position cursor.rest

end Token

end MiniSmalltalk
