import MiniSmalltalk.Proofs.Token.Pushback

/-! # Reading one character at a time

A scanner takes the characters of a source one by one and keeps what it is in the middle of as a
mode. Where a token ends only in front of the next character, it steps back over that character and
takes back the counts. Lines and columns have 32 bits. With checks, a count that would leave its
range is an overrun, and the scanner has no answer then. Without checks, it begins anew. -/

namespace MiniSmalltalk

open TokenStream Token

/-! ### Results -/

section

variable {ε α β γ : Type}

@[simp] theorem ok_bind (a : α) (f : α → Except ε β) : (Except.ok a >>= f) = f a := rfl

@[simp] theorem error_bind (e : ε) (f : α → Except ε β) :
    (Except.error e >>= f) = .error e := rfl

@[simp] theorem pure_eq_ok (a : α) : (pure a : Except ε α) = .ok a := rfl

@[simp] theorem map_ok (f : α → β) (a : α) : (Except.ok a : Except ε α).map f = .ok (f a) := rfl

@[simp] theorem map_map (x : Except ε α) (f : α → β) (g : β → γ) :
    (x.map f).map g = x.map fun a => g (f a) := by
  cases x <;> rfl

theorem bind_eq_ok_iff {x : Except ε α} {f : α → Except ε β} {b : β} :
    (x >>= f) = .ok b ↔ ∃ a, x = .ok a ∧ f a = .ok b := by
  cases x <;> simp

theorem map_eq_ok_iff {x : Except ε α} {f : α → β} {b : β} :
    x.map f = .ok b ↔ ∃ a, x = .ok a ∧ f a = b := by
  cases x <;> simp [Except.map]

end

/-! ### Counts -/

/-- What happens to a count of 32 bits that leaves its range: it is refused, or it begins anew. -/
inductive Arithmetic where
  | checked
  | wrapping

/-- Which end of its range a count would have left. -/
inductive Overrun where
  | above
  | below

namespace Arithmetic

variable {arithmetic : Arithmetic} {count : UInt32}

def increase (count : UInt32) : Arithmetic → Except Overrun UInt32
  | .checked => if count + 1 = 0 then .error .above else .ok (count + 1)
  | .wrapping => .ok (count + 1)

def decrease (count : UInt32) : Arithmetic → Except Overrun UInt32
  | .checked => if count = 0 then .error .below else .ok (count - 1)
  | .wrapping => .ok (count - 1)

/-- There is room above a count, if that is checked. -/
def HasRoom (count : UInt32) (arithmetic : Arithmetic) : Prop :=
  arithmetic = .checked → count + 1 ≠ 0

theorem hasRoom_wrapping : wrapping.HasRoom count := nofun

theorem increase_of_hasRoom (h : arithmetic.HasRoom count) :
    arithmetic.increase count = .ok (count + 1) := by
  cases arithmetic with
  | checked => exact if_neg (h rfl)
  | wrapping => rfl

theorem increase_of_not_hasRoom (h : ¬ arithmetic.HasRoom count) :
    arithmetic.increase count = .error .above := by
  cases arithmetic with
  | checked => exact if_pos (Classical.byContradiction fun hne => h fun _ => hne)
  | wrapping => exact absurd hasRoom_wrapping h

/-- What has been added can be taken away again. -/
theorem decrease_of_hasRoom (h : arithmetic.HasRoom count) :
    arithmetic.decrease (count + 1) = .ok count := by
  have hcancel : count + 1 - 1 = count := UInt32.add_sub_cancel count 1
  cases arithmetic with
  | checked => rw [decrease, if_neg (h rfl), hcancel]
  | wrapping => rw [decrease, hcancel]

end Arithmetic

/-! ### Heads -/

/-- A place in a source, and whether the last move there was a step back. -/
structure Head where
  source : List Char
  index : Nat
  line : UInt32
  column : UInt32
  rewound : Bool

namespace Head

def ofString (source : String) : Head := ⟨source.toList, 0, 1, 1, false⟩

/-- The offset at which a character of the source begins. -/
def offsetOf (head : Head) (index : Nat) : Nat := byteLength (head.source.take index)

def offset (head : Head) : Nat := head.offsetOf head.index

def position (head : Head) : Position := ⟨head.index, head.offset, head.line, head.column⟩

/-- The count that a character increases: a newline the line, any other the column. -/
def counted (head : Head) (c : Char) : UInt32 := if c = '\n' then head.line else head.column

/-- The head behind the next character, which is `c`, if the count has room for it. -/
def advance (arithmetic : Arithmetic) (head : Head) (c : Char) : Except Overrun Head :=
  if c = '\n' then do
    let line ← arithmetic.increase head.line
    return { head with index := head.index + 1, line, column := 1, rewound := false }
  else do
    let column ← arithmetic.increase head.column
    return { head with index := head.index + 1, column, rewound := false }

/-- The head behind the next character, without a check. -/
def take (head : Head) (c : Char) : Head :=
  { head with
    index := head.index + 1
    line := if c = '\n' then head.line + 1 else head.line
    column := if c = '\n' then 1 else head.column + 1
    rewound := false }

/-- The index of the last newline, or zero if there is none. -/
def lastNewline (cs : List Char) : Nat :=
  (cs.reverse.idxOf? '\n').elim 0 fun behind => cs.length - 1 - behind

def indexBefore : Nat → Except Overrun Nat
  | 0 => .error .below
  | index + 1 => .ok index

/-- One step back. Behind a newline the column is lost, and the index of the nearest newline takes
its place. -/
def back (arithmetic : Arithmetic) (head : Head) : Except Overrun Head :=
  if head.index = 0 then .ok head
  else do
    let index ← indexBefore head.index
    if head.source[index]? = some '\n' then
      let line ← arithmetic.decrease head.line
      let column := .ofNat (lastNewline (head.source.take (index + 1)))
      return { head with index, line, column, rewound := true }
    else
      let column ← arithmetic.decrease head.column
      return { head with index, column, rewound := true }

/-- A head stands between two parts of a source. -/
structure At (head : Head) (front rest : List Char) : Prop where
  source_eq : head.source = front ++ rest
  index_eq : head.index = front.length

def pass (head : Head) (cs : List Char) : Head := cs.foldl take head

/-- The head that has taken the next character, if there is one, and has stepped back. -/
def turned (head : Head) : List Char → Head
  | [] => head
  | c :: _ =>
      { head with column := if c = '\n' then .ofNat head.index else head.column, rewound := true }

@[simp] theorem pass_nil (head : Head) : head.pass [] = head := rfl

@[simp] theorem pass_cons (head : Head) (c : Char) (cs : List Char) :
    head.pass (c :: cs) = (head.take c).pass cs := rfl

@[simp] theorem take_source (head : Head) (c : Char) : (head.take c).source = head.source := rfl

@[simp] theorem pass_source (head : Head) (cs : List Char) :
    (head.pass cs).source = head.source := by
  induction cs generalizing head with
  | nil => rfl
  | cons c cs ih => rw [pass_cons, ih, take_source]

@[simp] theorem turned_source (head : Head) (rest : List Char) :
    (head.turned rest).source = head.source := by
  cases rest <;> rfl

theorem advance_of_hasRoom {arithmetic : Arithmetic} {head : Head} {c : Char}
    (h : arithmetic.HasRoom (head.counted c)) : head.advance arithmetic c = .ok (head.take c) := by
  unfold counted at h
  split at h <;> simp [advance, take, arithmetic.increase_of_hasRoom h, *]

theorem advance_of_not_hasRoom {arithmetic : Arithmetic} {head : Head} {c : Char}
    (h : ¬ arithmetic.HasRoom (head.counted c)) : head.advance arithmetic c = .error .above := by
  unfold counted at h
  split at h <;> simp [advance, arithmetic.increase_of_not_hasRoom h, *]

theorem lastNewline_append (front : List Char) :
    lastNewline (front ++ ['\n']) = front.length := by
  simp [lastNewline, List.idxOf?_cons]

namespace At

variable {head : Head} {front rest cs : List Char} {c : Char}

theorem offsetOf_eq (h : head.At front rest) : head.offset = byteLength front := by
  simp [offset, offsetOf, h.source_eq, h.index_eq]

theorem take (h : head.At front (c :: rest)) : (head.take c).At (front ++ [c]) rest :=
  ⟨by simp [Head.take, h.source_eq], by simp [Head.take, h.index_eq]⟩

theorem pass (h : head.At front (cs ++ rest)) : (head.pass cs).At (front ++ cs) rest := by
  induction cs generalizing head front with
  | nil => simpa using h
  | cons c cs ih => simpa using ih h.take

theorem turned (h : head.At front rest) : (head.turned rest).At front rest := by
  cases rest <;> exact ⟨h.source_eq, h.index_eq⟩

theorem position_take (h : head.At front (c :: rest)) :
    (head.take c).position = head.position.advance c := by
  have hoffset := h.take.offsetOf_eq
  rw [byteLength_append, ← h.offsetOf_eq] at hoffset
  simp only [position, hoffset]
  simp [Head.take, Position.advance]

theorem position_pass (h : head.At front (cs ++ rest)) :
    (head.pass cs).position = head.position.advanceAll cs := by
  induction cs generalizing head front with
  | nil => rfl
  | cons c cs ih => rw [pass_cons, ih h.take, h.position_take, Position.advanceAll_cons]

theorem position_turned (h : head.At front rest) :
    (head.turned rest).position = (Cursor.settle ⟨rest, head.position⟩).position := by
  cases rest with
  | nil => rfl
  | cons c rest =>
      by_cases hc : c = '\n'
      · subst hc
        rfl
      · rw [Cursor.settle.eq_def]
        split
        · rename_i heq
          exact absurd (List.cons.inj heq).1 hc
        · simp [Head.turned, position, offset, offsetOf, hc]

/-- The count that taking a character has increased can be decreased again. -/
theorem back_take {arithmetic : Arithmetic} (h : head.At front (c :: rest))
    (hroom : arithmetic.HasRoom (head.counted c)) :
    (head.take c).back arithmetic = .ok (head.turned (c :: rest)) := by
  obtain ⟨hsource, hindex⟩ := h
  have hnext : head.source[head.index]? = some c := by simp [hsource, hindex]
  have hdecrease := arithmetic.decrease_of_hasRoom hroom
  by_cases hc : c = '\n'
  · subst hc
    have hcolumn : lastNewline (head.source.take (head.index + 1)) = head.index := by
      rw [hsource, hindex, List.take_append, List.take_of_length_le (Nat.le_succ _)]
      simpa using lastNewline_append front
    rw [counted, if_pos rfl] at hdecrease
    simp [back, Head.take, Head.turned, indexBefore, hnext, hcolumn, hdecrease]
  · rw [counted, if_neg hc] at hdecrease
    simp [back, Head.take, Head.turned, indexBefore, hnext, hc, hdecrease]

end At

end Head

/-! ### Scanners -/

/-- What a scanner is in the middle of. -/
inductive Mode where
  | start
  | identifier
  /-- A name has been read, and the colon behind it. -/
  | keyword
  | string
  /-- A tick has been read in a string: it is the last one unless another one follows. -/
  | quote
  | comment
  | integer
  | colon

/-- A scanner: its head and mode, what it has kept of the token it is in the middle of, and the
tokens given back. The mark is the offset of the colon behind a name. -/
structure Scanner where
  head : Head
  mode : Mode
  text : List Char
  start : Nat
  mark : Nat
  pending : List Node

/-- What a scanner does with a character: it goes on to the next one, or it has an answer. -/
inductive Move where
  | onward (scanner : Scanner)
  | done (result : Answer × Scanner)

namespace Scanner

def ofString (source : String) : Scanner := ⟨.ofString source, .start, [], 0, 0, []⟩

def advance (arithmetic : Arithmetic) (m : Scanner) (c : Char) : Except Overrun Scanner :=
  (m.head.advance arithmetic c).map fun head => { m with head }

/-- The scanner behind the next character, without a check. -/
def take (m : Scanner) (c : Char) : Scanner := { m with head := m.head.take c }

/-- A fault from the beginning of the token to the head. -/
def fault (m : Scanner) (cause : LexicalCause) : LexicalFault :=
  ⟨cause, ⟨m.start, max m.head.offset m.start⟩, m.head.line, m.head.column⟩

/-- Steps back over a character, unless it was made up at the end of the source. -/
def reject (arithmetic : Arithmetic) (m : Scanner) (atEnd : Bool) : Except Overrun Scanner :=
  if atEnd then .ok m else (m.head.back arithmetic).map fun head => { m with head }

def enter (m : Scanner) (mode : Mode) (text : List Char) : Move := .onward { m with mode, text }

/-- A token up to the head, whose text does not have to be kept. -/
def single (m : Scanner) (kind : Kind) (text : Option String) : Answer × Scanner :=
  (.found (some ⟨kind, text, [], ⟨m.start, m.head.offset⟩⟩), { m with mode := .start })

/-- A token up to the head, with the text that was kept. -/
def emit (m : Scanner) (kind : Kind) : Answer × Scanner :=
  (.found (some (.leaf kind (String.ofList m.text) ⟨m.start, m.head.offset⟩)),
    { m with mode := .start, text := [] })

/-- What the first character of a token leads to. -/
def dispatch (m : Scanner) (c : Char) : Move :=
  if c = '^' then .done (m.single .answer none)
  else if c = ';' then .done (m.single .semicolon (String.singleton c))
  else if c = '.' then .done (m.single .dot (String.singleton c))
  else if c = '(' then .done (m.single .leftParenthesis (String.singleton c))
  else if c = ')' then .done (m.single .rightParenthesis (String.singleton c))
  else if c = '[' then .done (m.single .leftSquareBracket (String.singleton c))
  else if c = ']' then .done (m.single .rightSquareBracket (String.singleton c))
  else if c = Text.Quoted.tick then m.enter .string []
  else if c = ':' then m.enter .colon []
  else if isBinary c then .done (m.single .binary (String.singleton c))
  else if c.isAlpha then m.enter .identifier [c]
  else if c.isDigit then m.enter .integer [c]
  else .done (.fault (m.fault (.unknownCharacter c)), m)

/-- What a scanner does that has taken a character. At the end of the source it is given a blank. -/
def step (arithmetic : Arithmetic) (m : Scanner) (c : Char) (atEnd : Bool) :
    Except Overrun Move :=
  match m.mode with
  | .start =>
      let m := { m with start := m.head.offsetOf (m.head.index - 1) }
      if isBlank c then .ok (if atEnd then .done (.found none, m) else .onward m)
      else if c = quotationMark then .ok (m.enter .comment [])
      else .ok (m.dispatch c)
  | .identifier =>
      if c.isAlphanum then .ok (.onward { m with text := m.text ++ [c] })
      else if c = ':' then
        (Head.indexBefore m.head.index).map fun index =>
          .onward { m with mark := m.head.offsetOf index, mode := .keyword }
      else (m.reject arithmetic atEnd).map fun m => .done (m.emit .identifier)
  | .keyword =>
      if c = '=' then
        let name := .leaf .identifier (String.ofList m.text) ⟨m.start, m.mark⟩
        let sign := .bare .assignment ⟨m.mark, m.head.offset⟩
        .ok (.done (.found (some name),
          { m with mode := .start, text := [], pending := sign :: m.pending }))
      else
        (m.reject arithmetic atEnd).map fun m =>
          .done (emit { m with text := m.text ++ [':'] } .keyword)
  | .string =>
      if c = Text.Quoted.tick then .ok (.onward { m with mode := .quote })
      else if atEnd then .ok (.done (.fault (m.fault .unterminatedString), m))
      else .ok (.onward { m with text := m.text ++ [c] })
  | .quote =>
      if c = Text.Quoted.tick then .ok (m.enter .string (m.text ++ [c]))
      else (m.reject arithmetic atEnd).map fun m => .done (m.emit .string)
  | .comment =>
      if c = quotationMark then .ok (.onward { m with mode := .start })
      else if atEnd then .ok (.done (.fault (m.fault .unterminatedComment), m))
      else .ok (.onward m)
  | .integer =>
      if c.isDigit then .ok (.onward { m with text := m.text ++ [c] })
      else (m.reject arithmetic atEnd).map fun m => .done (m.emit .integer)
  | .colon =>
      let m := { m with mode := .start }
      if c = '=' then .ok (.done (m.single .assignment none))
      else (m.reject arithmetic atEnd).map fun m => .done (m.single .colon ":")

/-- Reads on through the characters in front of the head. -/
def scan (arithmetic : Arithmetic) (m : Scanner) : List Char → Except Overrun (Answer × Scanner)
  | [] =>
      (m.step arithmetic ' ' true).map fun move =>
        match move with
        | .onward m => (.fault (m.fault .unexpectedEnd), m)
        | .done result => result
  | c :: rest => do
      let n ← m.advance arithmetic c
      match ← n.step arithmetic c false with
      | .onward n => n.scan arithmetic rest
      | .done result => return result

/-- The answer to a call and the scanner it leaves. There is none if a count would leave its
range. -/
def serve (arithmetic : Arithmetic) (m : Scanner) : Call → Except Overrun (Answer × Scanner)
  | .read =>
      match m.pending with
      | token :: pending => .ok (.found (some token), { m with pending })
      | [] => m.scan arithmetic (m.head.source.drop m.head.index)
  | .unread none => .ok (.taken, m)
  | .unread (some token) =>
      if token.isLeaf then .ok (.taken, { m with pending := token :: m.pending })
      else
        .ok (.fault ⟨.compositePushback token.kind, token.span, m.head.line, m.head.column⟩, m)

/-- The answers to calls and the scanner they leave, if no count leaves its range. -/
def run (arithmetic : Arithmetic) (m : Scanner) :
    List Call → Except Overrun (List Answer × Scanner)
  | [] => .ok ([], m)
  | call :: calls => do
      let (answer, n) ← m.serve arithmetic call
      let (answers, last) ← n.run arithmetic calls
      return (answer :: answers, last)

/-! ### Runs of characters

Without checks, a scanner always comes to something. -/

variable {m : Scanner} {front rest : List Char}

theorem scan_nil_of_done {result : Answer × Scanner}
    (h : m.step .wrapping ' ' true = .ok (.done result)) : m.scan .wrapping [] = .ok result := by
  rw [scan, h]
  rfl

theorem advance_wrapping (m : Scanner) (c : Char) : m.advance .wrapping c = .ok (m.take c) := by
  rw [advance, Head.advance_of_hasRoom Arithmetic.hasRoom_wrapping]
  rfl

theorem scan_cons_of_onward {c : Char} {n : Scanner}
    (h : (m.take c).step .wrapping c false = .ok (.onward n)) :
    m.scan .wrapping (c :: rest) = n.scan .wrapping rest := by
  simp [scan, advance_wrapping, h]

theorem scan_cons_of_done {c : Char} {result : Answer × Scanner}
    (h : (m.take c).step .wrapping c false = .ok (.done result)) :
    m.scan .wrapping (c :: rest) = .ok result := by
  simp [scan, advance_wrapping, h]

/-- Where a token ends in front of the next character, that character is taken and given back. -/
theorem scan_of_rejects (hat : m.head.At front rest) {stops : Char → Prop}
    {finish : Scanner → Answer × Scanner} (hblank : stops ' ') (hrest : ∀ c ∈ rest.head?, stops c)
    (hstep : ∀ (n : Scanner) (c : Char) (atEnd : Bool), n.mode = m.mode → stops c →
      n.step .wrapping c atEnd = (n.reject .wrapping atEnd).map fun n => .done (finish n)) :
    m.scan .wrapping rest = .ok (finish { m with head := m.head.turned rest }) := by
  cases rest with
  | nil =>
      apply scan_nil_of_done
      rw [hstep m ' ' true rfl hblank]
      rfl
  | cons c rest =>
      apply scan_cons_of_done
      rw [hstep (m.take c) c false rfl (hrest c rfl)]
      simp [reject, take, hat.back_take Arithmetic.hasRoom_wrapping]

/-- Characters that continue a token are kept. -/
theorem scan_run {run : List Char} {mode : Mode} (hmode : m.mode = mode)
    (hstep : ∀ c ∈ run, ∀ n : Scanner, n.mode = mode →
      n.step .wrapping c false = .ok (.onward { n with text := n.text ++ [c] })) :
    m.scan .wrapping (run ++ rest) =
      scan .wrapping { m with head := m.head.pass run, text := m.text ++ run } rest := by
  induction run generalizing m with
  | nil => simp
  | cons c run ih =>
      have hc := hstep c List.mem_cons_self (m.take c) hmode
      have hrun := @ih { m.take c with text := m.text ++ [c] } hmode
        fun d hd => hstep d (List.mem_cons_of_mem _ hd)
      rw [List.cons_append, scan_cons_of_onward hc]
      simpa [take] using hrun

end Scanner

end MiniSmalltalk
