import MiniSmalltalk.Report.Listing

/-! # Rendered reports -/

namespace MiniSmalltalk

/-- Whether a report is written for a terminal that shows colours. -/
inductive Style where
  | plain
  | coloured
  deriving DecidableEq

namespace Style

def sequence (style : Style) (codes : List String) : String :=
  match style with
  | plain => ""
  | coloured => String.join (codes.map fun code => "\x1b[" ++ code ++ "m")

end Style

def Level.colour : Level → String
  | error => "31"
  | warning => "33"

namespace Diagnostic

/-- The head of a diagnostic without location. -/
def renderTitle (diagnostic : Diagnostic) (style : Style) : String :=
  style.sequence ["0", "1", diagnostic.level.colour] ++ diagnostic.level.word ++
    style.sequence ["0", "1"] ++ ": " ++ diagnostic.title ++ "\n\n" ++ style.sequence ["0"]

/-- The head of a diagnostic: a listing if it has a location, and its title otherwise. -/
def renderHead (diagnostic : Diagnostic) (style : Style) : String :=
  match diagnostic.location with
  | some location =>
      String.join ((Listing.rows diagnostic location).map fun row => row ++ "\n")
  | none => diagnostic.renderTitle style

def render (diagnostic : Diagnostic) (style : Style) : String :=
  diagnostic.renderHead style ++ (if diagnostic.text.isEmpty then "" else diagnostic.text ++ "\n")

def paragraph (diagnostic : Diagnostic) : String := diagnostic.render .plain ++ "\n"

end Diagnostic

end MiniSmalltalk
