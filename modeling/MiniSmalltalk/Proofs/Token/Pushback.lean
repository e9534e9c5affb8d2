import MiniSmalltalk.Proofs.Token.Ahead

/-! # A stack on a script

Scanning a source brings one outcome after another, and always the same ones: its script. A stream
is a stack of tokens on this script. It answers every sequence of calls as the stack does, and what
was given back has no influence on what is scanned, not even between the two tokens of `name:=`. -/

namespace MiniSmalltalk

namespace TokenStream

/-! ### Calls -/

/-- A call on a stream: for the next token, or to take a token back. -/
inductive Call where
  | read
  | unread (token : Option Node)

inductive Answer where
  | found (token : Option Node)
  | taken
  | fault (fault : LexicalFault)

/-- The answer that a result stands for, and the stream it leaves. -/
def replied {α : Type} (success : α → Answer) :
    EStateM.Result LexicalFault TokenStream α → Answer × TokenStream
  | .ok found behind => (success found, behind)
  | .error fault behind => (.fault fault, behind)

/-- The answer to a call, and the stream it leaves. -/
def serve (s : TokenStream) : Call → Answer × TokenStream
  | .read => replied .found (read s)
  | .unread token => replied (fun _ => .taken) (unread token s)

def after (s : TokenStream) (calls : List Call) : TokenStream :=
  calls.foldl (fun s call => (s.serve call).2) s

/-- The answers to calls, each with the place that reading has come to. -/
def answers (s : TokenStream) : List Call → List (Answer × Position)
  | [] => []
  | call :: calls =>
      ((s.serve call).1, (s.serve call).2.cursor.position) :: answers (s.serve call).2 calls

/-- The stream behind some readings, when nothing is given back. -/
def afterReads (s : TokenStream) (count : Nat) : TokenStream :=
  s.after (List.replicate count .read)

/-- What the reading behind some others comes to, when nothing is given back. -/
def outcome (s : TokenStream) (count : Nat) : Answer := ((s.afterReads count).serve .read).1

theorem after_append (s : TokenStream) (front back : List Call) :
    s.after (front ++ back) = (s.after front).after back := by
  simp [after, List.foldl_append]

@[simp] theorem afterReads_zero (s : TokenStream) : s.afterReads 0 = s := rfl

theorem afterReads_succ (s : TokenStream) (count : Nat) :
    s.afterReads (count + 1) = (s.serve .read).2.afterReads count := rfl

theorem afterReads_add (s : TokenStream) (first second : Nat) :
    s.afterReads (first + second) = (s.afterReads first).afterReads second := by
  rw [afterReads, ← List.replicate_append_replicate, after_append]
  rfl

theorem afterReads_succ_eq_serve (s : TokenStream) (count : Nat) :
    s.afterReads (count + 1) = ((s.afterReads count).serve .read).2 :=
  s.afterReads_add count 1

theorem serve_read_of_pending {s : TokenStream} {token : Node} {pending : List Node}
    (h : s.pending = token :: pending) :
    s.serve .read = (.found (some token), { s with pending }) := by
  rw [serve, read_of_pending_cons h]
  rfl

theorem serve_read_of_opening {s : TokenStream} (hp : s.pending = []) {opening : Opening}
    (ho : s.opening = some opening) : s.serve .read = (.fault (s.unclosed opening), s) := by
  simp [serve, read, hp, ho, replied]

/-- What a scan from the cursor of a stream is answered with, and the stream it leaves. -/
def conclude (s : TokenStream) : Scan → Answer × TokenStream
  | .finished cursor => (.found none, { s with cursor })
  | .token token queued cursor =>
      (.found (some token), { s with cursor, pending := queued.toList ++ s.pending })
  | .unknown character span cursor =>
      (.fault (cursor.fault (.unknownCharacter character) span), { s with cursor })
  | .unclosed opening cursor =>
      (.fault (cursor.unclosed opening), { s with cursor, opening := some opening })

theorem serve_read_of_scan {s : TokenStream} (hp : s.pending = []) (ho : s.opening = none) :
    s.serve .read = s.conclude (Token.scan s.cursor) := by
  have hread : read s = scan s := by simp [read, hp, ho]
  rw [serve, hread, scan]
  cases Token.scan s.cursor <;> rfl

end TokenStream

open TokenStream

/-! ### Scripts -/

/-- What scanning from a cursor comes to, one outcome after another and without end, with the place
that it has come to each time. Both tokens of `name:=` are found at once. -/
def Cursor.script (cursor : Cursor) (count : Nat) : Answer × Position :=
  match Token.scan cursor, count with
  | .finished behind, _ => (.found none, behind.position)
  | .token token _ behind, 0 => (.found (some token), behind.position)
  | .token _ none behind, count + 1 => behind.script count
  | .token _ (some queued) behind, 1 => (.found (some queued), behind.position)
  | .token _ (some _) behind, count + 2 => behind.script count
  | .unknown character span behind, 0 =>
      (.fault (behind.fault (.unknownCharacter character) span), behind.position)
  | .unknown _ _ behind, count + 1 => behind.script count
  | .unclosed opening behind, _ => (.fault (behind.unclosed opening), behind.position)

namespace TokenStream

/-- Where no token is found, reading stays at the end. -/
theorem serve_read_of_rest_nil {s : TokenStream} (hp : s.pending = []) (ho : s.opening = none)
    (hr : s.cursor.rest = []) : s.serve .read = (.found none, s) := by
  obtain ⟨⟨rest, position⟩, opening, pending, failed⟩ := s
  obtain rfl : rest = [] := hr
  rw [serve_read_of_scan hp ho]
  rfl

/-- A stream that a reading leaves as it is answers all readings alike. -/
theorem afterReads_of_stays {s : TokenStream} {answer : Answer}
    (h : s.serve .read = (answer, s)) (count : Nat) : s.afterReads count = s := by
  induction count with
  | zero => rfl
  | succ count ih => rw [afterReads_succ, h, ih]

theorem observed_of_stays {s behind : TokenStream} {answer : Answer}
    (hs : s.serve .read = (answer, behind)) (hb : behind.serve .read = (answer, behind))
    (count : Nat) :
    (s.outcome count, (s.afterReads (count + 1)).cursor.position) =
      (answer, behind.cursor.position) := by
  cases count with
  | zero => simp [outcome, afterReads_succ, hs]
  | succ count => simp [outcome, afterReads_succ, hs, hb, afterReads_of_stays hb]

theorem observed_succ {s behind : TokenStream} {answer : Answer}
    (hs : s.serve .read = (answer, behind)) (count : Nat) :
    (s.outcome (count + 1), (s.afterReads (count + 1 + 1)).cursor.position) =
      (behind.outcome count, (behind.afterReads (count + 1)).cursor.position) := by
  rw [outcome, outcome, afterReads_succ, afterReads_succ s (count + 1), hs]

/-- Readings follow the script when nothing is given back. -/
theorem observed_eq_script {s : TokenStream} (hp : s.pending = []) (ho : s.opening = none)
    (count : Nat) :
    (s.outcome count, (s.afterReads (count + 1)).cursor.position) = s.cursor.script count := by
  have hserve := serve_read_of_scan hp ho
  have hspec := Token.scan_spec s.cursor
  generalize hcursor : s.cursor = cursor at hserve hspec
  fun_induction Cursor.script cursor count generalizing s with
  | case1 count cursor behind hscan =>
      rw [hscan] at hserve hspec
      have hb := @serve_read_of_rest_nil { s with cursor := behind } hp ho hspec
      exact observed_of_stays hserve hb count
  | case2 cursor token queued behind hscan =>
      rw [hscan] at hserve
      simp [outcome, afterReads_succ, hserve, conclude]
  | case3 cursor token behind count hscan ih =>
      rw [hscan] at hserve
      rw [observed_succ hserve]
      exact ih hp ho rfl (serve_read_of_scan hp ho) (Token.scan_spec behind)
  | case4 cursor token queued behind hscan =>
      rw [hscan] at hserve
      rw [observed_succ hserve]
      rfl
  | case5 cursor token queued behind count hscan ih =>
      rw [hscan] at hserve
      rw [observed_succ hserve, observed_succ (serve_read_of_pending rfl)]
      exact ih hp ho rfl (serve_read_of_scan hp ho) (Token.scan_spec behind)
  | case6 cursor character span behind hscan =>
      rw [hscan] at hserve
      simp [outcome, afterReads_succ, hserve, conclude]
  | case7 cursor character span behind count hscan ih =>
      rw [hscan] at hserve
      rw [observed_succ hserve]
      exact ih hp ho rfl (serve_read_of_scan hp ho) (Token.scan_spec behind)
  | case8 count cursor opening behind hscan =>
      rw [hscan] at hserve
      have hb := @serve_read_of_opening
        { s with cursor := behind, opening := some opening } hp opening rfl
      exact observed_of_stays hserve hb count

end TokenStream

/-! ### Stacks -/

/-- A stream with some more tokens given back, the latest one first. -/
def TokenStream.stacked (s : TokenStream) (given : List Node) : TokenStream :=
  { s with pending := given ++ s.pending }

/-- A stack of tokens on a script: the tokens given back, how much of the script has been handed
out, and the place that this has come to. -/
structure Tape where
  given : List Node
  handed : Nat
  position : Position

namespace Tape

/-- No token has been given back, and nothing has been handed out. -/
def start : Tape := ⟨[], 0, .start⟩

/-- A reading takes the uppermost token, or else the next outcome of the script. A token without
children is put on top, and any other is refused. -/
def serve (script : Nat → Answer × Position) (tape : Tape) : Call → Answer × Tape
  | .read =>
      match tape.given with
      | token :: given => (.found (some token), { tape with given })
      | [] =>
          let (answer, position) := script tape.handed
          (answer, { tape with handed := tape.handed + 1, position })
  | .unread none => (.taken, tape)
  | .unread (some token) =>
      if token.isLeaf then (.taken, { tape with given := token :: tape.given })
      else
        let place := tape.position
        (.fault ⟨.compositePushback token.kind, token.span, place.line, place.column⟩, tape)

def after (script : Nat → Answer × Position) (tape : Tape) (calls : List Call) : Tape :=
  calls.foldl (fun tape call => (tape.serve script call).2) tape

/-- The answers to calls, each with the place that the script has come to. -/
def answers (script : Nat → Answer × Position) (tape : Tape) :
    List Call → List (Answer × Position)
  | [] => []
  | call :: calls =>
      ((tape.serve script call).1, (tape.serve script call).2.position) ::
        answers script (tape.serve script call).2 calls

/-- A stream holds the tokens of a stack and is otherwise as if nothing had been given back. -/
structure Backs (source : String) (tape : Tape) (s : TokenStream) : Prop where
  stream_eq : s = ((ofString source).afterReads tape.handed).stacked tape.given
  position_eq : s.cursor.position = tape.position

theorem backs_start (source : String) : start.Backs source (ofString source) := ⟨rfl, rfl⟩

/-- Streams and stacks stay together in every call. -/
theorem Backs.serve {source : String} {tape : Tape} {s : TokenStream} (h : tape.Backs source s)
    (call : Call) :
    (s.serve call).1 = (tape.serve (Cursor.ofString source).script call).1 ∧
      (tape.serve (Cursor.ofString source).script call).2.Backs source (s.serve call).2 := by
  obtain ⟨given, handed, position⟩ := tape
  obtain ⟨rfl, hposition⟩ := h
  obtain rfl : ((ofString source).afterReads handed).cursor.position = position := hposition
  cases call with
  | read =>
      cases given with
      | cons token given => exact ⟨rfl, rfl, rfl⟩
      | nil =>
          have hscript := @observed_eq_script (ofString source) rfl rfl handed
          obtain ⟨hanswer, hplace⟩ := Prod.mk.inj hscript
          rw [afterReads_succ_eq_serve] at hplace
          refine ⟨hanswer, ?_, hplace⟩
          rw [Tape.serve, afterReads_succ_eq_serve]
          rfl
  | unread token =>
      cases token with
      | none => exact ⟨rfl, rfl, rfl⟩
      | some token =>
          cases hleaf : token.isLeaf with
          | true =>
              simp only [TokenStream.serve, unread_some_of_isLeaf hleaf, Tape.serve, hleaf]
              exact ⟨rfl, rfl, rfl⟩
          | false =>
              simp only [TokenStream.serve, unread_some_of_not_isLeaf hleaf, Tape.serve, hleaf]
              exact ⟨rfl, rfl, rfl⟩

/-- Streams and stacks answer all calls alike. -/
theorem Backs.run {source : String} {tape : Tape} {s : TokenStream} (h : tape.Backs source s)
    (calls : List Call) :
    s.answers calls = tape.answers (Cursor.ofString source).script calls ∧
      (tape.after (Cursor.ofString source).script calls).Backs source (s.after calls) := by
  induction calls generalizing tape s with
  | nil => exact ⟨rfl, h⟩
  | cons call calls ih =>
      obtain ⟨hanswer, hbacks⟩ := h.serve call
      obtain ⟨hanswers, hafter⟩ := ih hbacks
      refine ⟨?_, hafter⟩
      rw [TokenStream.answers, Tape.answers, hanswer, hbacks.position_eq, hanswers]

end Tape

/-- A stream answers every sequence of calls as the stack on the script of its source does, and
keeps to the same places. What was given back changes nothing but the tokens that are pending: all
else is as if nothing but readings had been asked for. Taking a token back moves nothing, and
neither does a reading while a token is pending. -/
theorem pushback_refines_stack (source : String) (calls : List Call) :
    (ofString source).answers calls = Tape.start.answers (Cursor.ofString source).script calls ∧
    (Tape.start.after (Cursor.ofString source).script calls).Backs source
      ((ofString source).after calls) ∧
    (∀ token, (((ofString source).after calls).serve (.unread token)).2.cursor =
      ((ofString source).after calls).cursor) ∧
    (∀ node, node.isLeaf = false → (((ofString source).after calls).serve (.unread (some node))).2 =
      (ofString source).after calls) ∧
    (((ofString source).after calls).pending ≠ [] →
      (((ofString source).after calls).serve .read).2.cursor =
        ((ofString source).after calls).cursor) := by
  obtain ⟨hanswers, hbacks⟩ := (Tape.backs_start source).run calls
  refine ⟨hanswers, hbacks, ?_, ?_, ?_⟩
  · intro token
    cases token with
    | none => rfl
    | some token =>
        rw [serve, unread]
        split <;> rfl
  · intro node hnode
    rw [serve, unread_some_of_not_isLeaf hnode]
    rfl
  · intro hpending
    obtain ⟨token, pending, hcons⟩ := List.exists_cons_of_ne_nil hpending
    rw [serve_read_of_pending hcons]

/-- A token that is given back between a name and the sign behind it comes before the sign. -/
theorem pushback_refines_stack_inside_assignment :
    (ofString "a:=1").answers
        [.read, .unread (some (.leaf .dot "." ⟨7, 8⟩)), .read, .read, .read, .read] =
      [(.found (some (.leaf .identifier "a" ⟨0, 1⟩)), ⟨3, 3, 1, 4⟩), (.taken, ⟨3, 3, 1, 4⟩),
        (.found (some (.leaf .dot "." ⟨7, 8⟩)), ⟨3, 3, 1, 4⟩),
        (.found (some (.bare .assignment ⟨1, 3⟩)), ⟨3, 3, 1, 4⟩),
        (.found (some (.leaf .integer "1" ⟨3, 4⟩)), ⟨4, 4, 1, 5⟩),
        (.found none, ⟨4, 4, 1, 5⟩)] := by
  rw [(pushback_refines_stack "a:=1" _).1]
  rfl

end MiniSmalltalk
