import MiniSmalltalk.Proofs.Token.Onward
import MiniSmalltalk.Proofs.Token.Scanner
import MiniSmalltalk.Proofs.Token.Separation

/-! # Scanners and scans

What a scanner comes to character by character is what a scan from the same place comes to: one
token after the other, behind any gap, and at the end of the source. -/

namespace MiniSmalltalk

open TokenStream Token

namespace Scanner

variable {m : Scanner} {front rest : List Char}

/-! ### Following a scan -/

/-- A scanner stands where a cursor does. -/
structure Stands (m : Scanner) (source : List Char) (cursor : Cursor) : Prop where
  source_eq : m.head.source = source
  between : ∃ front, m.head.At front cursor.rest
  position_eq : m.head.position = cursor.position

/-- A scanner is in the middle of a literal or comment that began at its start. -/
def IsInside (m : Scanner) : Opening → Prop
  | .string start => m.mode = .string ∧ m.start = start
  | .comment start => m.mode = .comment ∧ m.start = start

/-- A scanner has come to what a scan has come to. -/
def Follows (source : List Char) (pending : List Node)
    (result : Except Overrun (Answer × Scanner)) : Scan → Prop
  | .finished behind => ∃ n : Scanner, result = .ok (.found none, n) ∧ n.Stands source behind ∧
      n.mode = .start ∧ n.pending = pending
  | .token token queued behind => ∃ n : Scanner, result = .ok (.found (some token), n) ∧
      n.Stands source behind ∧ n.mode = .start ∧ n.pending = queued.toList ++ pending
  | .unknown character span behind => ∃ n : Scanner,
      result = .ok (.fault (behind.fault (.unknownCharacter character) span), n) ∧
      n.Stands source behind ∧ n.mode = .start ∧ n.pending = pending ∧ n.head.rewound = false
  | .unclosed opening behind => ∃ n : Scanner,
      result = .ok (.fault (behind.unclosed opening), n) ∧ n.Stands source behind ∧
      n.IsInside opening ∧ n.pending = pending

/-- A head has taken a lexeme that begins at a position, and stands in front of the rest. -/
structure Behind (source : List Char) (p : Position) (lexeme rest : List Char) (head : Head) :
    Prop where
  source_eq : head.source = source
  between : ∃ front, head.At front rest
  position_eq : head.position = p.advanceAll lexeme

namespace Behind

variable {source lexeme run : List Char} {p : Position} {head : Head} {c : Char}

theorem take (h : Behind source p lexeme (c :: rest) head) :
    Behind source p (lexeme ++ [c]) rest (head.take c) := by
  obtain ⟨hsource, ⟨front, hat⟩, hposition⟩ := h
  refine ⟨hsource, ⟨_, hat.take⟩, ?_⟩
  rw [hat.position_take, hposition, Position.advanceAll_append]
  rfl

theorem pass (h : Behind source p lexeme (run ++ rest) head) :
    Behind source p (lexeme ++ run) rest (head.pass run) := by
  obtain ⟨hsource, ⟨front, hat⟩, hposition⟩ := h
  refine ⟨by rw [Head.pass_source, hsource], ⟨_, hat.pass⟩, ?_⟩
  rw [hat.position_pass, hposition, Position.advanceAll_append]

theorem offset_eq (h : Behind source p lexeme rest head) :
    head.offset = (p.advanceAll lexeme).offset :=
  congrArg Position.offset h.position_eq

end Behind

section

variable {source lexeme cs : List Char} {pending : List Node} {p : Position} {c : Char}

/-- A token that ends in front of the next character, which is taken and given back. -/
theorem follows_of_rejects (h : Behind source p lexeme rest m.head) (hstart : m.start = p.offset)
    (hpending : m.pending = pending) {stops : Char → Prop} {finish : Scanner → Answer × Scanner}
    (hblank : stops ' ') (hrest : ∀ c ∈ rest.head?, stops c)
    (hstep : ∀ (n : Scanner) (c : Char) (atEnd : Bool), n.mode = m.mode → stops c →
      n.step .wrapping c atEnd = (n.reject .wrapping atEnd).map fun n => .done (finish n))
    {kind : Kind} {text : Option String}
    (hfinish : ∀ n : Scanner, n.text = m.text → ∃ left : List Char, finish n =
      (.found (some ⟨kind, text, [], ⟨n.start, n.head.offset⟩⟩),
        { n with mode := .start, text := left })) :
    Follows source pending (m.scan .wrapping rest)
      (.token ⟨kind, text, [], ⟨p.offset, (p.advanceAll lexeme).offset⟩⟩ none
        (.settle ⟨rest, p.advanceAll lexeme⟩)) := by
  obtain ⟨hsource, ⟨front, hat⟩, hposition⟩ := h
  have hturned := hat.position_turned
  rw [hposition] at hturned
  have hoffset := congrArg Position.offset hturned
  rw [Cursor.settle_offset] at hoffset
  obtain ⟨left, hresult⟩ := hfinish { m with head := m.head.turned rest } rfl
  rw [scan_of_rejects hat hblank hrest hstep, hresult]
  refine ⟨{ m with head := m.head.turned rest, mode := .start, text := left }, ?_,
    ⟨?_, ⟨front, ?_⟩, hturned⟩, rfl, hpending⟩
  · rw [hstart, ← hoffset]
    rfl
  · rw [← hsource]
    exact Head.turned_source _ _
  · rw [Cursor.settle_rest]
    exact hat.turned

theorem head?_dropWhile_stops (test : Char → Bool) (cs : List Char) :
    ∀ c ∈ (cs.dropWhile test).head?, test c = false := by
  intro c hc
  have hhead := List.head?_dropWhile_not test cs
  rw [hc] at hhead
  exact hhead

theorem head?_ne_of_not_cons {rest : List Char} {c : Char} (h : ∀ more, rest ≠ c :: more) :
    ∀ d ∈ rest.head?, d ≠ c := by
  rintro d hd rfl
  obtain ⟨more, hmore⟩ := List.head?_eq_some_iff.mp hd
  exact h more hmore

/-! ### Numbers and words -/

theorem digits_follows (h : Behind source p [c] cs m.head) (hstart : m.start = p.offset)
    (hpending : m.pending = pending) (hmode : m.mode = .integer) (htext : m.text = [c]) :
    Follows source pending (m.scan .wrapping cs) (digits p c cs) := by
  have hrun := @scan_run m (cs.dropWhile Char.isDigit) (cs.takeWhile Char.isDigit) .integer hmode
    (by
      intro d hd n hn
      have hdigit := List.all_eq_true.mp List.all_takeWhile d hd
      simp [step, hn, hdigit])
  rw [List.takeWhile_append_dropWhile] at hrun
  rw [← @List.takeWhile_append_dropWhile _ Char.isDigit cs] at h
  rw [hrun]
  refine @follows_of_rejects { m with head := m.head.pass _, text := m.text ++ _ } _ source _
    pending p h.pass hstart hpending (fun d => d.isDigit = false) (fun n => n.emit .integer)
    (by decide) (head?_dropWhile_stops _ cs) ?_ _ _ ?_
  · intro n d atEnd hn hd
    rw [hmode] at hn
    simp [step, hn, hd]
  · intro n hn
    exact ⟨[], by simp [emit, Node.leaf, hn, htext]⟩

theorem identifier_follows (h : Behind source p lexeme rest m.head) (hstart : m.start = p.offset)
    (hpending : m.pending = pending) (hmode : m.mode = .identifier)
    (hletter : ∀ d ∈ rest.head?, d.isAlphanum = false) (hrest : ∀ more, rest ≠ ':' :: more) :
    Follows source pending (m.scan .wrapping rest)
      (.token (.leaf .identifier (String.ofList m.text)
        ⟨p.offset, (p.advanceAll lexeme).offset⟩) none (.settle ⟨rest, p.advanceAll lexeme⟩)) := by
  have hstops : ∀ d ∈ rest.head?, d.isAlphanum = false ∧ d ≠ ':' := by
    intro d hd
    exact ⟨hletter d hd, head?_ne_of_not_cons hrest d hd⟩
  refine @follows_of_rejects m rest source lexeme pending p h hstart hpending
    (fun d => d.isAlphanum = false ∧ d ≠ ':') (fun n => n.emit .identifier) (by decide) hstops
    ?_ _ _ ?_
  · intro n d atEnd hn hd
    rw [hmode] at hn
    simp [step, hn, hd]
  · intro n hn
    exact ⟨[], by simp [emit, Node.leaf, hn]⟩

/-- The colon behind a name is marked. -/
theorem step_colon (hmode : m.mode = .identifier) :
    (m.take ':').step .wrapping ':' false =
      .ok (.onward { m.take ':' with mark := m.head.offset, mode := .keyword }) := by
  simp [step, take, hmode, Head.take, Head.offset, Head.offsetOf, Head.indexBefore]

theorem keyword_follows {name : List Char} (h : Behind source p name (':' :: rest) m.head)
    (hstart : m.start = p.offset) (hpending : m.pending = pending) (hmode : m.mode = .identifier)
    (hrest : ∀ more, rest ≠ '=' :: more) :
    Follows source pending (m.scan .wrapping (':' :: rest))
      (.token (.leaf .keyword (String.ofList (m.text ++ [':']))
        ⟨p.offset, (p.advanceAll (name ++ [':'])).offset⟩) none
        (.settle ⟨rest, p.advanceAll (name ++ [':'])⟩)) := by
  rw [scan_cons_of_onward (step_colon hmode)]
  refine @follows_of_rejects { m.take ':' with mark := _, mode := .keyword } rest source _ pending p
    h.take hstart hpending (· ≠ '=') (fun n => emit { n with text := n.text ++ [':'] } .keyword)
    (by decide) (head?_ne_of_not_cons hrest) ?_ _ _ ?_
  · intro n d atEnd hn hd
    simp [step, hn, hd]
  · intro n hn
    exact ⟨[], by simp [emit, Node.leaf, hn, take]⟩

/-- The sign behind a name is queued while the name is handed out. -/
theorem assignment_follows {name : List Char} (h : Behind source p name (':' :: '=' :: rest) m.head)
    (hstart : m.start = p.offset) (hpending : m.pending = pending) (hmode : m.mode = .identifier) :
    Follows source pending (m.scan .wrapping (':' :: '=' :: rest))
      (.token (.leaf .identifier (String.ofList m.text) ⟨p.offset, (p.advanceAll name).offset⟩)
        (some (.bare .assignment ⟨(p.advanceAll name).offset,
          ((p.advanceAll name).advanceAll [':', '=']).offset⟩))
        ⟨rest, (p.advanceAll name).advanceAll [':', '=']⟩) := by
  have hsign :
      (take { m.take ':' with mark := m.head.offset, mode := .keyword } '=').step .wrapping '='
        false = .ok (.done (.found (some (.leaf .identifier (String.ofList m.text)
        ⟨m.start, m.head.offset⟩)), { m with
          head := (m.head.take ':').take '='
          mode := .start
          text := []
          mark := m.head.offset
          pending := .bare .assignment
            ⟨m.head.offset, ((m.head.take ':').take '=').offset⟩ :: m.pending })) := rfl
  have hbehind := h.take.take
  rw [List.append_assoc] at hbehind
  have hoffset := hbehind.offset_eq
  have hposition := hbehind.position_eq
  rw [Position.advanceAll_append] at hoffset hposition
  rw [scan_cons_of_onward (step_colon hmode), scan_cons_of_done hsign, h.offset_eq, hoffset,
    hstart, hpending]
  exact ⟨_, rfl, ⟨hbehind.source_eq, hbehind.between, hposition⟩, rfl, rfl⟩

theorem word_follows (h : Behind source p [c] cs m.head) (hstart : m.start = p.offset)
    (hpending : m.pending = pending) (hmode : m.mode = .identifier) (htext : m.text = [c]) :
    Follows source pending (m.scan .wrapping cs) (word p c cs) := by
  have hrun := @scan_run m (cs.dropWhile Char.isAlphanum) (cs.takeWhile Char.isAlphanum)
    .identifier hmode
    (by
      intro d hd n hn
      have hletter := List.all_eq_true.mp List.all_takeWhile d hd
      simp [step, hn, hletter])
  rw [List.takeWhile_append_dropWhile] at hrun
  rw [← @List.takeWhile_append_dropWhile _ Char.isAlphanum cs] at h
  rw [hrun, htext]
  have hname := h.pass
  by_cases hcolon : ∃ rest, cs.dropWhile Char.isAlphanum = ':' :: rest
  · obtain ⟨rest, hrest⟩ := hcolon
    rw [hrest] at hname
    by_cases hassign : ∃ more, rest = '=' :: more
    · obtain ⟨more, rfl⟩ := hassign
      rw [word_of_assignment hrest, hrest]
      exact @assignment_follows { m with head := m.head.pass _, text := _ } _ _ _ _ _ hname hstart
        hpending hmode
    · have hmore : ∀ more, rest ≠ '=' :: more := fun more h => hassign ⟨more, h⟩
      rw [word_of_colon hrest hmore, hrest]
      exact @keyword_follows { m with head := m.head.pass _, text := _ } _ _ _ _ _ hname hstart
        hpending hmode hmore
  · have hnone : ∀ rest, cs.dropWhile Char.isAlphanum ≠ ':' :: rest :=
      fun rest h => hcolon ⟨rest, h⟩
    rw [word_of_not_colon hnone]
    exact @identifier_follows { m with head := m.head.pass _, text := _ } _ _ _ _ _ hname hstart
      hpending hmode (head?_dropWhile_stops _ cs) hnone

theorem colon_follows (h : Behind source p [':'] cs m.head) (hstart : m.start = p.offset)
    (hpending : m.pending = pending) (hmode : m.mode = .colon) :
    Follows source pending (m.scan .wrapping cs) (colon p cs) := by
  by_cases hequals : ∃ rest, cs = '=' :: rest
  · obtain ⟨rest, rfl⟩ := hequals
    have hsign : (m.take '=').step .wrapping '=' false =
        .ok (.done (single { m.take '=' with mode := .start } .assignment none)) := by
      simp [step, take, hmode]
    have hbehind := h.take
    rw [scan_cons_of_done hsign, single]
    refine ⟨{ m.take '=' with mode := .start }, ?_,
      ⟨hbehind.source_eq, hbehind.between, hbehind.position_eq⟩, rfl, hpending⟩
    simp only [take, hstart, hbehind.offset_eq]
    rfl
  · have hrest : ∀ rest, cs ≠ '=' :: rest := fun rest hr => hequals ⟨rest, hr⟩
    rw [colon_of_not_equals hrest]
    refine @follows_of_rejects m cs source [':'] pending p h hstart hpending (· ≠ '=')
      (fun n => single { n with mode := .start } .colon ":") (by decide)
      (head?_ne_of_not_cons hrest) ?_ _ _ ?_
    · intro n d atEnd hn hd
      rw [hmode] at hn
      cases atEnd <;> simp [step, reject, hn, hd]
    · intro n hn
      exact ⟨n.text, rfl⟩

/-! ### Strings -/

/-- A fault reaches from the beginning of the token to the head. -/
theorem fault_eq (h : Behind source p lexeme rest m.head) (hstart : m.start = p.offset)
    (cause : LexicalCause) : m.fault cause =
      Cursor.fault ⟨rest, p.advanceAll lexeme⟩ cause ⟨p.offset, (p.advanceAll lexeme).offset⟩ := by
  have hle : p.offset ≤ (p.advanceAll lexeme).offset := by
    rw [Position.advanceAll_offset]
    exact Nat.le_add_right _ _
  have hline := congrArg Position.line h.position_eq
  have hcolumn := congrArg Position.column h.position_eq
  simp only [fault, Cursor.fault, hstart, h.offset_eq, Nat.max_eq_left hle]
  rw [← hline, ← hcolumn]
  rfl

/-- The text of a string is kept with every two ticks as one. -/
theorem scan_encode (text : List Char) (hmode : m.mode = .string) :
    m.scan .wrapping (Text.Quoted.encode text ++ rest) =
      scan .wrapping
        { m with head := m.head.pass (Text.Quoted.encode text), text := m.text ++ text } rest := by
  induction text generalizing m with
  | nil => simp
  | cons c text ih =>
      by_cases hc : c = Text.Quoted.tick
      · subst hc
        have hfirst : (m.take Text.Quoted.tick).step .wrapping Text.Quoted.tick false =
            .ok (.onward { m.take Text.Quoted.tick with mode := .quote }) := by
          simp [step, take, hmode]
        have hsecond := @ih { m with
          head := (m.head.take Text.Quoted.tick).take Text.Quoted.tick
          text := m.text ++ [Text.Quoted.tick] } hmode
        rw [Text.Quoted.encode_cons_tick, List.cons_append, List.cons_append,
          scan_cons_of_onward hfirst, scan_cons_of_onward rfl]
        simpa [take, enter, hmode] using hsecond
      · have hkept : (m.take c).step .wrapping c false =
            .ok (.onward { m.take c with text := m.text ++ [c] }) := by
          simp [step, take, hmode, hc]
        have hlater := @ih { m.take c with text := m.text ++ [c] } hmode
        rw [Text.Quoted.encode_cons_of_ne hc, List.cons_append, scan_cons_of_onward hkept]
        simpa [take] using hlater

/-- A tick that no other one follows ends a string. -/
theorem closing_follows (h : Behind source p lexeme (Text.Quoted.tick :: rest) m.head)
    (hstart : m.start = p.offset) (hpending : m.pending = pending) (hmode : m.mode = .string)
    (hrest : rest.head? ≠ some Text.Quoted.tick) :
    Follows source pending (m.scan .wrapping (Text.Quoted.tick :: rest))
      (.token (.leaf .string (String.ofList m.text)
        ⟨p.offset, (p.advanceAll (lexeme ++ [Text.Quoted.tick])).offset⟩) none
        (.settle ⟨rest, p.advanceAll (lexeme ++ [Text.Quoted.tick])⟩)) := by
  have hclose : (m.take Text.Quoted.tick).step .wrapping Text.Quoted.tick false =
      .ok (.onward { m.take Text.Quoted.tick with mode := .quote }) := by
    simp [step, take, hmode]
  rw [scan_cons_of_onward hclose]
  refine @follows_of_rejects { m.take Text.Quoted.tick with mode := .quote } rest source _ pending p
    h.take hstart hpending (· ≠ Text.Quoted.tick) (fun n => n.emit .string) (by decide) ?_ ?_ _ _ ?_
  · rintro d hd rfl
    exact hrest hd
  · intro n d atEnd hn hd
    simp [step, hn, hd]
  · intro n hn
    exact ⟨[], by simp [emit, Node.leaf, hn, take]⟩

/-- Inside a literal or comment nothing is left to do at the end of the source, however often. -/
theorem scan_nil_of_isInside {opening : Opening} (h : m.IsInside opening) :
    m.scan .wrapping [] = .ok (.fault (m.fault opening.cause), m) := by
  have htick : ' ' ≠ Text.Quoted.tick := by decide
  have hmark : ' ' ≠ quotationMark := by decide
  apply scan_nil_of_done
  cases opening with
  | string start => simp [step, h.1, htick, Opening.cause]
  | comment start => simp [step, h.1, hmark, Opening.cause]

theorem unclosed_follows {opening : Opening} (h : Behind source p lexeme [] m.head)
    (hstart : opening.start = p.offset) (hpending : m.pending = pending)
    (hinside : m.IsInside opening) :
    Follows source pending (m.scan .wrapping []) (.unclosed opening ⟨[], p.advanceAll lexeme⟩) := by
  have hm : m.start = p.offset := by
    rw [← hstart]
    cases opening <;> exact hinside.2
  rw [scan_nil_of_isInside hinside, fault_eq h hm]
  refine ⟨m, ?_, ⟨h.source_eq, h.between, h.position_eq⟩, hinside, hpending⟩
  rw [← hstart]
  rfl

theorem quoted_follows (h : Behind source p [Text.Quoted.tick] cs m.head)
    (hstart : m.start = p.offset) (hpending : m.pending = pending) (hmode : m.mode = .string)
    (htext : m.text = []) :
    Follows source pending (m.scan .wrapping cs) (quoted p Text.Quoted.tick cs) := by
  cases hsplit : Text.Quoted.split? cs with
  | some found =>
      obtain ⟨text, rest⟩ := found
      have hcs := Text.Quoted.eq_encode_of_split? cs hsplit
      rw [hcs] at h
      rw [quoted, hsplit, hcs, scan_encode text hmode, htext]
      exact @closing_follows { m with head := m.head.pass _, text := text } _ _ _ _ _ h.pass hstart
        hpending hmode (head?_of_split? hsplit)
  | none =>
      obtain ⟨text, hcs⟩ := Text.Quoted.eq_encode_of_split?_none hsplit
      have hscan := @scan_encode m [] text hmode
      rw [← hcs, List.append_nil] at hscan
      rw [← List.append_nil cs] at h
      rw [quoted, hsplit, hscan]
      exact @unclosed_follows { m with head := m.head.pass cs, text := _ } _ _ _ _
        (.string p.offset) h.pass rfl hpending ⟨hmode, hstart⟩

/-! ### Gaps -/

/-- The text of a comment is passed. -/
theorem scan_body {body : List Char} (hb : quotationMark ∉ body) (hmode : m.mode = .comment) :
    m.scan .wrapping (body ++ rest) = scan .wrapping { m with head := m.head.pass body } rest := by
  induction body generalizing m with
  | nil => rfl
  | cons c body ih =>
      obtain ⟨hc, hbody⟩ := List.ne_and_not_mem_of_not_mem_cons hb
      have hpassed : (m.take c).step .wrapping c false = .ok (.onward (m.take c)) := by
        simp [step, take, hmode, Ne.symm hc]
      rw [List.cons_append, scan_cons_of_onward hpassed]
      exact @ih (m.take c) hbody hmode

/-- The scanner behind the first character of a token or a comment. -/
def opened (m : Scanner) (c : Char) : Scanner := { m.take c with start := m.head.offset }

theorem step_of_start (hmode : m.mode = .start) (c : Char) :
    (m.take c).step .wrapping c false =
      if isBlank c then .ok (.onward (m.opened c))
      else if c = quotationMark then .ok ((m.opened c).enter .comment [])
      else .ok ((m.opened c).dispatch c) := by
  simp [step, hmode, opened, take, Head.take, Head.offset, Head.offsetOf]

/-- The mark that a comment begins with. -/
theorem scan_quotationMark (hmode : m.mode = .start) (rest : List Char) :
    m.scan .wrapping (quotationMark :: rest) =
      scan .wrapping { m.opened quotationMark with mode := .comment, text := [] } rest := by
  have hblank : isBlank quotationMark = false := by decide
  have hopen := step_of_start hmode quotationMark
  rw [if_neg (by simp [hblank]), if_pos rfl] at hopen
  exact scan_cons_of_onward hopen

/-- The mark that a comment ends with. -/
theorem scan_closing (hmode : m.mode = .comment) (rest : List Char) :
    m.scan .wrapping (quotationMark :: rest) =
      scan .wrapping { m.take quotationMark with mode := .start } rest := by
  apply scan_cons_of_onward
  simp [step, take, hmode]

/-- A scanner passes a gap and keeps nothing of it. -/
theorem scan_gap {gap : List Char} (hg : Gap gap) (hmode : m.mode = .start) (rest : List Char) :
    ∃ n : Scanner, m.scan .wrapping (gap ++ rest) = n.scan .wrapping rest ∧
      n.head = m.head.pass gap ∧ n.mode = .start ∧ n.pending = m.pending := by
  induction hg generalizing m with
  | nil => exact ⟨m, rfl, rfl, hmode, rfl⟩
  | @blank c cs hc _ ih =>
      have hblank := step_of_start hmode c
      rw [if_pos hc] at hblank
      rw [List.cons_append, scan_cons_of_onward hblank]
      exact @ih (m.opened c) hmode
  | @comment body cs hbody _ ih =>
      obtain ⟨n, hscan, hhead, hn⟩ := @ih { m.opened quotationMark with
        head := ((m.head.take quotationMark).pass body).take quotationMark
        mode := .start
        text := [] } rfl
      refine ⟨n, ?_, ?_, hn⟩
      · rw [List.cons_append, List.append_assoc, List.cons_append, scan_quotationMark hmode,
          scan_body hbody rfl, scan_closing rfl]
        exact hscan
      · rw [hhead]
        simp [Head.pass]

/-! ### Whole scans -/

/-- Goes on with what a move has led to, without a check. -/
def proceed (rest : List Char) : Move → Except Overrun (Answer × Scanner)
  | .onward m => m.scan .wrapping rest
  | .done result => .ok result

theorem scan_cons {move : Move} (h : (m.take c).step .wrapping c false = .ok move) :
    m.scan .wrapping (c :: rest) = proceed rest move := by
  cases move with
  | onward n => exact scan_cons_of_onward h
  | done result => exact scan_cons_of_done h

theorem Follows.ite {test : Prop} [Decidable test] {yes no : Scan} {move move' : Move}
    (hy : test → Follows source pending (proceed rest move) yes)
    (hn : ¬ test → Follows source pending (proceed rest move') no) :
    Follows source pending (proceed rest (if test then move else move'))
      (if test then yes else no) := by
  by_cases h : test
  · rw [if_pos h, if_pos h]
    exact hy h
  · rw [if_neg h, if_neg h]
    exact hn h

theorem single_follows (h : Behind source p [c] cs m.head) (hstart : m.start = p.offset)
    (hpending : m.pending = pending) (kind : Kind) (text : Option String) :
    Follows source pending (proceed cs (.done (m.single kind text)))
      (.token ⟨kind, text, [], ⟨p.offset, (p.advance c).offset⟩⟩ none ⟨cs, p.advance c⟩) := by
  refine ⟨{ m with mode := .start }, ?_, ⟨h.source_eq, h.between, h.position_eq⟩, rfl, hpending⟩
  rw [proceed, single, hstart, h.offset_eq]
  rfl

theorem dispatch_follows (h : Behind source p [c] cs m.head) (hstart : m.start = p.offset)
    (hpending : m.pending = pending) (hmode : m.mode = .start) (hmoved : m.head.rewound = false) :
    Follows source pending (proceed cs (m.dispatch c)) (Token.read p c cs) := by
  unfold dispatch Token.read
  refine .ite ?_ fun _ => ?_
  · rintro rfl
    exact single_follows h hstart hpending _ _
  iterate 6 refine .ite (fun _ => single_follows h hstart hpending _ _) fun _ => ?_
  refine .ite ?_ fun _ => .ite ?_ fun _ => .ite (fun _ => single_follows h hstart hpending _ _)
    fun _ => .ite (fun _ => ?_) fun _ => .ite (fun _ => ?_) fun _ => ?_
  · rintro rfl
    exact @quoted_follows { m with mode := .string, text := [] } _ _ _ _ h hstart hpending rfl rfl
  · rintro rfl
    exact @colon_follows { m with mode := .colon, text := [] } _ _ _ _ h hstart hpending rfl
  · exact @word_follows { m with mode := .identifier, text := [c] } _ _ _ _ _ h hstart hpending rfl
      rfl
  · exact @digits_follows { m with mode := .integer, text := [c] } _ _ _ _ _ h hstart hpending rfl
      rfl
  · rw [fault_eq h hstart]
    exact ⟨m, rfl, ⟨h.source_eq, h.between, h.position_eq⟩, hmode, hpending, hmoved⟩

/-- At the end of the source there is no token. -/
theorem end_follows (hsource : m.head.source = source) (hat : m.head.At front [])
    (hmode : m.mode = .start) :
    Follows source m.pending (m.scan .wrapping []) (.finished ⟨[], m.head.position⟩) := by
  have hblank : isBlank ' ' = true := by decide
  refine ⟨{ m with start := m.head.offsetOf (m.head.index - 1) }, scan_nil_of_done ?_,
    ⟨hsource, ⟨front, hat⟩, rfl⟩, hmode, rfl⟩
  simp [step, hmode, hblank]

/-- The first character behind a gap decides what follows. -/
theorem read_follows (hsource : m.head.source = source) (hat : m.head.At front (c :: rest))
    (hmode : m.mode = .start) (hc : Starts c) :
    Follows source m.pending (m.scan .wrapping (c :: rest))
      (Token.read m.head.position c rest) := by
  have hopened : Behind source m.head.position [c] rest (m.opened c).head :=
    ⟨hsource, ⟨_, hat.take⟩, hat.position_take⟩
  have hstep := step_of_start hmode c
  rw [if_neg (by simp [hc.1]), if_neg hc.2] at hstep
  rw [scan_cons hstep]
  exact dispatch_follows hopened rfl rfl hmode rfl

/-- A comment that is never closed runs to the end. -/
theorem comment_follows {body : List Char} (hsource : m.head.source = source)
    (hat : m.head.At front (quotationMark :: body)) (hmode : m.mode = .start)
    (hb : quotationMark ∉ body) :
    Follows source m.pending (m.scan .wrapping (quotationMark :: body))
      (.unclosed (.comment m.head.position.offset)
        ⟨[], m.head.position.advanceAll (quotationMark :: body)⟩) := by
  have hopened : Behind source m.head.position [quotationMark] (body ++ [])
      (m.head.take quotationMark) := by
    rw [List.append_nil]
    exact ⟨hsource, ⟨_, hat.take⟩, hat.position_take⟩
  have hscan := @scan_body { m.opened quotationMark with mode := .comment, text := [] } [] body hb
    rfl
  rw [List.append_nil] at hscan
  rw [scan_quotationMark hmode, hscan]
  exact @unclosed_follows { m.opened quotationMark with
    head := (m.head.take quotationMark).pass body
    mode := .comment
    text := [] } _ _ _ _ (.comment m.head.position.offset) hopened.pass rfl rfl ⟨rfl, rfl⟩

/-- A scanner that is in the middle of nothing comes to what a scan comes to. -/
theorem scan_follows (hsource : m.head.source = source) (hat : m.head.At front cs)
    (hmode : m.mode = .start) :
    Follows source m.pending (m.scan .wrapping cs) (Token.scan ⟨cs, m.head.position⟩) := by
  rw [Token.scan]
  cases layout cs with
  | gap hg =>
      obtain ⟨n, hscan, hhead, hn, hpending⟩ := scan_gap hg hmode []
      have hgap := scanFrom_gap hg m.head.position []
      rw [← List.append_nil cs] at hat
      rw [List.append_nil] at hscan hgap
      rw [hscan, hgap, ← hat.position_pass, ← hhead, ← hpending]
      exact end_follows (by rw [hhead, Head.pass_source, hsource]) (hhead ▸ hat.pass) hn
  | @token gap rest c hg hc =>
      obtain ⟨n, hscan, hhead, hn, hpending⟩ := scan_gap hg hmode (c :: rest)
      rw [hscan, scanFrom_gap hg, scanFrom_of_starts hc, ← hat.position_pass, ← hhead, ← hpending]
      exact read_follows (by rw [hhead, Head.pass_source, hsource]) (hhead ▸ hat.pass) hn hc
  | @unclosed gap body hg hb =>
      obtain ⟨n, hscan, hhead, hn, hpending⟩ := scan_gap hg hmode (quotationMark :: body)
      rw [hscan, scanFrom_gap hg, scanFrom_quotationMark, scanFrom_unclosed hb,
        ← Position.advanceAll_cons, ← hat.position_pass, ← hhead, ← hpending]
      exact comment_follows (by rw [hhead, Head.pass_source, hsource]) (hhead ▸ hat.pass) hn hb

end

end Scanner

end MiniSmalltalk
