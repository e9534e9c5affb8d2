import MiniSmalltalk.Report.Warning

/-! # Diagnostics

A diagnostic is what a failure or a warning comes to before it is laid out as text. -/

namespace MiniSmalltalk

inductive Level where
  | warning
  | error
  deriving DecidableEq

def Level.word : Level → String
  | warning => "warning"
  | error => "error"

/-- A part of a source, and what is said about it. -/
structure Label where
  text : Option String
  span : Span
  deriving DecidableEq

/-- What is said about a labelled part, empty if nothing is. -/
def Label.message (label : Label) : String := label.text.getD ""

/-- A source, the part of it that is at issue and further parts. -/
structure Location where
  file : SourceFile
  label : Label
  extraLabels : List Label
  deriving DecidableEq

/-- A report with everything that can be shown of it. -/
structure Diagnostic where
  title : String
  text : String
  hint : Option String
  level : Level
  location : Option Location
  deriving DecidableEq

namespace FailureCause

def title : FailureCause → String
  | lexical _ => "Syntax error"
  | grammatical _ => "Syntax error"
  | runtime _ => "Runtime error"

/-- The part of a source that a failure points at: a source that ended too early is pointed at
where it ends. -/
def spanIn (source : String) : FailureCause → Span
  | lexical fault => fault.span
  | grammatical fault => if fault.isEnd then .point source.utf8ByteSize else fault.span
  | runtime fault => fault.span

end FailureCause

def Failure.diagnostic (failure : Failure) : Diagnostic :=
  { title := failure.cause.title
    text := failure.cause.wording.explanation
    hint := none
    level := .error
    location := some
      { file := failure.file
        label := ⟨some failure.cause.wording.title, failure.cause.spanIn failure.file.text⟩
        extraLabels := [] } }

namespace Notice

def title : Notice → String
  | implicitDeclaration _ _ => "Implicit declaration"
  | unparsedInput _ => "Unparsed input"

def message : Notice → String
  | implicitDeclaration name _ => s!"`{name}` is not bound in any enclosing scope"
  | unparsedInput _ => "This part of the source is ignored"

/-- What can be done about a notice. -/
def hint : Notice → Option String
  | implicitDeclaration name _ => some s!"declare it with `| {name} |` if it is meant to be local"
  | unparsedInput _ => none

end Notice

def Warning.diagnostic (warning : Warning) : Diagnostic :=
  { title := warning.notice.title
    text := ""
    hint := warning.notice.hint
    level := .warning
    location := some
      { file := warning.file
        label := ⟨some warning.notice.message, warning.notice.span⟩
        extraLabels := [] } }

end MiniSmalltalk
