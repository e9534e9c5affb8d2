/-! # Classes of characters

The first character of a token decides what it is. All classes are ASCII: any other
character occurs in strings and comments only. -/

namespace MiniSmalltalk.Token

/-- The characters that separate tokens: blank, carriage return, newline and both tabs. -/
def blanks : List Char := [' ', '\r', '\n', '\t', '\x0b']

def binaries : List Char :=
  ['!', '%', '&', '*', '+', ',', '/', '<', '=', '>', '?', '@', '\\', '~', '|', '-']

def isBlank (c : Char) : Bool := blanks.contains c

def isBinary (c : Char) : Bool := binaries.contains c

def quotationMark : Char := '\x22'

end MiniSmalltalk.Token
