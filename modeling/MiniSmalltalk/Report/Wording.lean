/-! # Wordings

Every fault is worded as a title and further lines. -/

namespace MiniSmalltalk

/-- A title and the lines that explain it. -/
structure Wording where
  title : String
  notes : List String
  deriving DecidableEq, Inhabited

namespace Wording

def explanation (wording : Wording) : String := "\n".intercalate wording.notes

/-- Title and explanation, one line each. -/
def message (wording : Wording) : String := "\n".intercalate (wording.title :: wording.notes)

end Wording

end MiniSmalltalk
