/-! # Sinks -/

namespace MiniSmalltalk

/-- What becomes of output: it is kept, or dropped. -/
inductive Sink where
  | recording
  | silent
  deriving DecidableEq

end MiniSmalltalk
