import MiniSmalltalk.Report.Sink

/-! # Transcripts

A transcript collects what a program shows. -/

namespace MiniSmalltalk

/-- Everything shown since the transcript was last emptied. -/
structure Transcript where
  contents : String
  deriving DecidableEq, Inhabited

namespace Transcript

def empty : Transcript := ⟨""⟩

def append (transcript : Transcript) (text : String) : Transcript := ⟨transcript.contents ++ text⟩

def appendVia (transcript : Transcript) : Sink → String → Transcript
  | .recording, text => transcript.append text
  | .silent, _ => transcript

/-- The contents, and the transcript emptied. -/
def take (transcript : Transcript) : String × Transcript := (transcript.contents, empty)

end Transcript

end MiniSmalltalk
