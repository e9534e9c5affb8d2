import MiniSmalltalk.Report.Diagnostic
import MiniSmalltalk.Source.Lines
import MiniSmalltalk.Text.Width

/-! # Listings

A diagnostic with a location is laid out as an excerpt of its source. Line numbers stand in a
margin; a label within one line is underlined, a label over several lines is bracketed in an
inner margin. -/

namespace MiniSmalltalk.Listing

/-- A character of a line with its bytes, counted from the start of the line, and its width. -/
structure Cell where
  character : Char
  start : Nat
  stop : Nat
  width : Nat

/-- The cells of a text that goes on from a byte and a column. -/
def cellsFrom (byte column : Nat) : List Char → List Cell
  | [] => []
  | c :: cs =>
      let width := Text.widthAt column c
      ⟨c, byte, byte + c.utf8Size, width⟩ :: cellsFrom (byte + c.utf8Size) (column + width) cs

def cells (text : List Char) : List Cell := cellsFrom 0 0 text

def repeated (count : Nat) (c : Char) : String := String.ofList (List.replicate count c)

/-- The text of a line with blanks for tabs. -/
def expand (text : List Char) : String :=
  String.join <| (cells text).map fun cell =>
    if cell.character = '\t' then repeated cell.width ' ' else String.singleton cell.character

/-- The room that the characters before a byte take. -/
def widthBefore (text : List Char) (byte : Nat) : Nat :=
  ((cells text).filter fun cell => cell.start < byte).foldl (fun width cell => width + cell.width) 0

/-- A label with the lines it begins and ends in, and its bytes counted from those lines. -/
structure Placed where
  firstLine : Nat
  firstByte : Nat
  lastLine : Nat
  lastByte : Nat
  message : String
  caret : Char

def place (lines : List SourceLine) (caret : Char) (label : Label) : Placed :=
  let startOf (line : Nat) : Nat := (lines[line]?.map SourceLine.start).getD 0
  let first := SourceLine.indexOf lines label.span.start
  let last := SourceLine.indexOf lines label.span.stop
  ⟨first, label.span.start - startOf first, last, label.span.stop - startOf last, label.message,
    caret⟩

def Placed.isSingle (label : Placed) : Bool := label.firstLine == label.lastLine

/-- A source to be shown, its labels, and the width of the margin. -/
structure Page where
  lines : List SourceLine
  labels : List Placed
  margin : Nat

def Page.text (page : Page) (line : Nat) : List Char :=
  (page.lines[line]?.map SourceLine.text).getD []

/-- The margin of a line without number. -/
def Page.blank (page : Page) : String := repeated page.margin ' '

def Page.bracketed? (page : Page) : Option Placed := page.labels.find? fun label => !label.isSingle

/-- A message behind the mark it belongs to. -/
def trailing (message : String) : String := if message.isEmpty then "" else " " ++ message

def digitCount (n : Nat) : Nat := (Nat.toDigits 10 n).length

def Page.ofLocation (location : Location) : Page :=
  let lines := SourceLine.ofString location.file.text
  let labels := place lines '^' location.label :: location.extraLabels.map (place lines '-')
  let greatest := labels.foldl (fun n label => max n (max label.firstLine label.lastLine)) 0
  ⟨lines, labels, digitCount (greatest + 1)⟩

/-! ### Which lines are shown -/

/-- Adds a line to an ascending list of lines. -/
def insertLine (line : Nat) : List Nat → List Nat
  | [] => [line]
  | other :: others =>
      if line < other then line :: other :: others
      else if line = other then other :: others
      else other :: insertLine line others

/-- The lines that a label asks for: of a long bracketed part the first four and the last
two. -/
def Placed.wanted (label : Placed) : List Nat :=
  if label.isSingle then [label.firstLine]
  else
    (List.range (label.lastLine + 1)).filter fun line =>
      label.firstLine ≤ line && (line - label.firstLine ≤ 3 || label.lastLine - line ≤ 1)

def Page.wanted (page : Page) : List Nat :=
  (page.labels.flatMap Placed.wanted).foldl (fun lines line => insertLine line lines) []

inductive Entry where
  | line (index : Nat)
  /-- Lines are left out behind this one. -/
  | gap (index : Nat)

/-- Puts a gap where lines are left out. A single line is not left out. -/
def entries : List Nat → List Entry
  | [] => []
  | [line] => [.line line]
  | line :: next :: others =>
      if next = line + 1 then .line line :: entries (next :: others)
      else if next = line + 2 then .line line :: .line (line + 1) :: entries (next :: others)
      else .line line :: .gap line :: entries (next :: others)

/-! ### What is shown -/

/-- The inner margin of a line. A bracket that begins where the text of the line begins is drawn
here. -/
def Page.inner (page : Page) (line : Nat) : String :=
  match page.bracketed? with
  | none => ""
  | some label =>
      if line = label.firstLine then
        if label.firstByte ≤ indentation (page.text line) then " ╭" else "  "
      else " │"

def Page.innerOfGap (page : Page) (line : Nat) : String :=
  match page.bracketed? with
  | none => ""
  | some label => if line = label.firstLine then "  " else " │"

/-- The marks under a label within a line. The place behind the text counts as a character. -/
def underline (text : List Char) (label : Placed) : String :=
  let stop := max label.lastByte (label.firstByte + 1)
  let length := byteLength text
  let behind : Cell := ⟨' ', length, length + 1, 1⟩
  String.join <| (cells text ++ [behind]).map fun cell =>
    if label.firstByte < cell.stop && cell.start < stop then repeated cell.width label.caret
    else if cell.start < stop then repeated cell.width ' '
    else ""

def Page.marks (page : Page) (line : Nat) (label : Placed) : List String :=
  let text := page.text line
  if label.isSingle then
    if line = label.firstLine then
      [page.blank ++ " │ " ++ underline text label ++ trailing label.message]
    else []
  else
    let opening :=
      if line = label.firstLine && indentation text < label.firstByte then
        [page.blank ++ " │ ╭" ++ repeated (widthBefore text (label.firstByte + 1)) '─' ++
          String.singleton label.caret]
      else []
    let closing :=
      if line = label.lastLine then
        [page.blank ++ " │ ╰" ++ repeated (widthBefore text label.lastByte) '─' ++
          String.singleton label.caret ++ trailing label.message]
      else []
    opening ++ closing

/-- A line with its number and the marks under it. -/
def Page.numbered (page : Page) (line : Nat) : List String :=
  let number := toString (line + 1)
  let padding := repeated (page.margin - number.length) ' '
  (padding ++ number ++ " │" ++ page.inner line ++ " " ++ expand (page.text line)) ::
    page.labels.flatMap (page.marks line)

def Page.rows (page : Page) : Entry → List String
  | .line line => page.numbered line
  | .gap line => [page.blank ++ " ·" ++ page.innerOfGap line]

/-- The row that separates the listing from its head and from its notes. -/
def Page.spacer (page : Page) : String :=
  page.blank ++ " │" ++ (if page.bracketed?.isSome then "  " else "")

/-- The row that says where the labelled part begins. -/
def Page.heading (page : Page) (location : Location) : String :=
  let offset := location.label.span.start
  let line := SourceLine.indexOf page.lines offset
  let column := (page.lines[line]?.map fun found => found.columnOf offset).getD 1
  page.blank ++ " ┌─ " ++ location.file.path ++ ":" ++ toString (line + 1) ++ ":" ++ toString column

/-- The lines of a note, without the characters that end them. -/
def noteLines (current : List Char) : List Char → List String
  | [] => if current.isEmpty then [] else [String.ofList current.reverse]
  | c :: cs =>
      if c = '\n' then
        let line := match current with
          | '\r' :: before => before
          | whole => whole
        String.ofList line.reverse :: noteLines [] cs
      else noteLines (c :: current) cs

def Page.note (page : Page) (hint : String) : List String :=
  match noteLines [] ("hint: " ++ hint).toList with
  | [] => []
  | first :: others =>
      (page.blank ++ " = " ++ first) :: others.map fun line => page.blank ++ "   " ++ line

def rows (diagnostic : Diagnostic) (location : Location) : List String :=
  let page := Page.ofLocation location
  let notes := match diagnostic.hint with
    | some hint => page.spacer :: page.note hint
    | none => []
  [diagnostic.level.word ++ ": " ++ diagnostic.title, page.heading location, page.spacer] ++
    (entries page.wanted).flatMap page.rows ++ notes ++ [""]

end MiniSmalltalk.Listing
