import MiniSmalltalk.Proofs.Token.Ahead

/-! # Spellings

How each token is written, and what may stand between two tokens, as predicates on characters.
Scanning passes a gap and then reads what is spelled behind it; what follows a token matters
only where it could continue it. -/

namespace MiniSmalltalk

theorem utf8ByteSize_ofList (cs : List Char) : (String.ofList cs).utf8ByteSize = byteLength cs := by
  induction cs with
  | nil => simp
  | cons c cs ih => simp [String.ofList_cons, ih]

theorem byteLength_toList (source : String) : byteLength source.toList = source.utf8ByteSize := by
  rw [← utf8ByteSize_ofList, String.ofList_toList]

namespace Token

/-! ### Gaps and spellings -/

/-- What may stand between tokens: blanks and closed comments. -/
inductive Gap : List Char → Prop where
  | nil : Gap []
  | blank {c : Char} {cs : List Char} : isBlank c = true → Gap cs → Gap (c :: cs)
  | comment {body cs : List Char} : quotationMark ∉ body → Gap cs →
      Gap (quotationMark :: (body ++ quotationMark :: cs))

/-- The tokens that are always written with the same character, which is their text. -/
def marks : List (Kind × Char) :=
  [(.colon, ':'), (.semicolon, ';'), (.dot, '.'), (.leftParenthesis, '('),
    (.rightParenthesis, ')'), (.leftSquareBracket, '['), (.rightSquareBracket, ']')]

/-- How a token of a kind with a text is written. Most tokens are written as their text; the
text of a string is written with every tick doubled, and two tokens have none. -/
inductive Spelling : Kind → Option String → List Char → Prop where
  | identifier {c : Char} {cs : List Char} : c.isAlpha = true → (∀ d ∈ cs, d.isAlphanum = true) →
      Spelling .identifier (some (String.ofList (c :: cs))) (c :: cs)
  | keyword {c : Char} {cs : List Char} : c.isAlpha = true → (∀ d ∈ cs, d.isAlphanum = true) →
      Spelling .keyword (some (String.ofList (c :: (cs ++ [':'])))) (c :: (cs ++ [':']))
  | binary {c : Char} : isBinary c = true → Spelling .binary (some (String.ofList [c])) [c]
  | integer {c : Char} {cs : List Char} : c.isDigit = true → (∀ d ∈ cs, d.isDigit = true) →
      Spelling .integer (some (String.ofList (c :: cs))) (c :: cs)
  | mark {kind : Kind} {c : Char} : (kind, c) ∈ marks →
      Spelling kind (some (String.ofList [c])) [c]
  | answer : Spelling .answer none ['^']
  | assignment : Spelling .assignment none [':', '=']
  | string {text : List Char} : Spelling .string (some (String.ofList text))
      (Text.Quoted.tick :: (Text.Quoted.encode text ++ [Text.Quoted.tick]))

/-- A token covers the characters it is written with, which begin at an offset. -/
structure Written (offset : Nat) (lexeme : List Char) (token : Node) : Prop where
  leaf : token.isLeaf = true
  spelling : Spelling token.kind token.text lexeme
  span_eq : token.span = ⟨offset, offset + byteLength lexeme⟩

theorem Gap.append {front back : List Char} (hf : Gap front) (hb : Gap back) :
    Gap (front ++ back) := by
  induction hf with
  | nil => exact hb
  | blank hc _ ih => exact .blank hc ih
  | comment hn _ ih => simpa using Gap.comment hn ih

theorem Spelling.ne_nil {kind : Kind} {text : Option String} {lexeme : List Char}
    (h : Spelling kind text lexeme) : lexeme ≠ [] := by
  cases h <;> simp

theorem byteLength_pos {cs : List Char} (h : cs ≠ []) : 0 < byteLength cs := by
  obtain ⟨c, cs, rfl⟩ := List.exists_cons_of_ne_nil h
  have hc := c.utf8Size_pos
  rw [byteLength_cons]
  omega

/-! ### Passing a gap -/

theorem scanFrom_comment {body : List Char} (hb : quotationMark ∉ body) (start : Nat)
    (p : Position) (rest : List Char) :
    scanFrom (some start) p (body ++ quotationMark :: rest) =
      scanFrom none (p.advanceAll (body ++ [quotationMark])) rest := by
  induction body generalizing p with
  | nil => simp [scanFrom]
  | cons c body ih =>
      obtain ⟨hc, hbody⟩ := List.ne_and_not_mem_of_not_mem_cons hb
      simp [scanFrom, Ne.symm hc, ih hbody]

theorem scanFrom_unclosed {body : List Char} (hb : quotationMark ∉ body) (start : Nat)
    (p : Position) :
    scanFrom (some start) p body = .unclosed (.comment start) ⟨[], p.advanceAll body⟩ := by
  induction body generalizing p with
  | nil => simp [scanFrom]
  | cons c body ih =>
      obtain ⟨hc, hbody⟩ := List.ne_and_not_mem_of_not_mem_cons hb
      simp [scanFrom, Ne.symm hc, ih hbody]

theorem scanFrom_quotationMark (p : Position) (rest : List Char) :
    scanFrom none p (quotationMark :: rest) =
      scanFrom (some p.offset) (p.advance quotationMark) rest := by
  simp [scanFrom]

theorem scanFrom_of_isBlank {c : Char} (hc : isBlank c = true) (p : Position) (rest : List Char) :
    scanFrom none p (c :: rest) = scanFrom none (p.advance c) rest := by
  have hne : c ≠ quotationMark := by
    rintro rfl
    exact absurd hc (by decide)
  simp [scanFrom, hne, hc]

theorem scanFrom_gap {gap : List Char} (hg : Gap gap) (p : Position) (rest : List Char) :
    scanFrom none p (gap ++ rest) = scanFrom none (p.advanceAll gap) rest := by
  induction hg generalizing p with
  | nil => rfl
  | blank hc _ ih => rw [List.cons_append, scanFrom_of_isBlank hc, ih, Position.advanceAll_cons]
  | comment hn _ ih =>
      rw [List.cons_append, List.append_assoc, List.cons_append, scanFrom_quotationMark,
        scanFrom_comment hn, ih]
      simp [Position.advanceAll_append]

/-- A character at which a gap ends. -/
def Starts (c : Char) : Prop := isBlank c = false ∧ c ≠ quotationMark

theorem scanFrom_of_starts {c : Char} (hc : Starts c) (p : Position) (rest : List Char) :
    scanFrom none p (c :: rest) = read p c rest := by
  simp [scanFrom, hc.1, hc.2]

/-- What there is to scan: a gap and nothing else, a gap and the first character of a token, or
a gap and a comment that is not closed. -/
inductive Layout : List Char → Prop where
  | gap {cs : List Char} : Gap cs → Layout cs
  | token {gap rest : List Char} {c : Char} : Gap gap → Starts c → Layout (gap ++ c :: rest)
  | unclosed {gap body : List Char} : Gap gap → quotationMark ∉ body →
      Layout (gap ++ quotationMark :: body)

theorem Layout.behind {gap cs : List Char} (hg : Gap gap) (h : Layout cs) : Layout (gap ++ cs) := by
  cases h with
  | gap h => exact .gap (hg.append h)
  | token h hc => simpa using Layout.token (hg.append h) hc
  | unclosed h hb => simpa using Layout.unclosed (hg.append h) hb

theorem layout (cs : List Char) : Layout cs := by
  match cs with
  | [] => exact .gap .nil
  | c :: cs =>
      by_cases hq : c = quotationMark
      · subst hq
        by_cases hclosed : quotationMark ∈ cs
        · -- The comment ends at the first quotation mark behind its beginning.
          obtain ⟨body, rest, rfl, hbody⟩ := List.eq_append_cons_of_mem hclosed
          simpa using (layout rest).behind (.comment hbody .nil)
        · exact .unclosed .nil hclosed
      · by_cases hb : isBlank c = true
        · exact (layout cs).behind (.blank hb .nil)
        · exact .token .nil ⟨by simpa using hb, hq⟩
termination_by cs.length
decreasing_by all_goals simp_all <;> omega

/-! ### What follows a token -/

/-- The characters with which a gap begins. None of them continues a token. -/
def separators : List Char := quotationMark :: blanks

/-- Nothing follows, or a gap. -/
def Breaks (tail : List Char) : Prop := ∀ c ∈ tail.head?, c ∈ separators

theorem Gap.breaks {gap : List Char} (hg : Gap gap) (hne : gap ≠ []) (rest : List Char) :
    Breaks (gap ++ rest) := by
  intro c hc
  cases hg with
  | nil => exact absurd rfl hne
  | @blank d _ hd _ =>
      obtain rfl : d = c := by simpa using hc
      exact List.mem_cons_of_mem _ (List.contains_iff_mem.mp hd)
  | comment _ _ =>
      obtain rfl : quotationMark = c := by simpa using hc
      exact List.mem_cons_self

theorem breaks_nil : Breaks [] := by simp [Breaks]

theorem Breaks.not_cons {tail rest : List Char} (ht : Breaks tail) {c : Char}
    (hc : c ∉ separators) : tail ≠ c :: rest := by
  rintro rfl
  exact hc (ht c rfl)

theorem stops_of_head? {tail : List Char} {test : Char → Bool}
    (h : ∀ c ∈ tail.head?, test c = false) :
    tail.takeWhile test = [] ∧ tail.dropWhile test = tail := by
  cases tail with
  | nil => simp
  | cons c rest => simp [h c rfl]

theorem Breaks.stops {tail : List Char} (ht : Breaks tail) {test : Char → Bool}
    (hs : ∀ c ∈ separators, test c = false) :
    tail.takeWhile test = [] ∧ tail.dropWhile test = tail :=
  stops_of_head? fun c hc => hs c (ht c hc)

theorem takeWhile_append_of_breaks {tail : List Char} (ht : Breaks tail) {test : Char → Bool}
    (hs : ∀ c ∈ separators, test c = false) (cs : List Char) :
    (cs ++ tail).takeWhile test = cs.takeWhile test := by
  induction cs with
  | nil => exact (ht.stops hs).1
  | cons c cs ih => by_cases hc : test c = true <;> simp [hc, ih]

theorem dropWhile_append_of_breaks {tail : List Char} (ht : Breaks tail) {test : Char → Bool}
    (hs : ∀ c ∈ separators, test c = false) (cs : List Char) :
    (cs ++ tail).dropWhile test = cs.dropWhile test ++ tail := by
  induction cs with
  | nil => exact (ht.stops hs).2
  | cons c cs ih => by_cases hc : test c = true <;> simp [hc, ih]

theorem isAlphanum_of_separator : ∀ c ∈ separators, c.isAlphanum = false := by
  simp [separators, blanks, quotationMark]

theorem isDigit_of_separator : ∀ c ∈ separators, c.isDigit = false := by
  simp [separators, blanks, quotationMark]

/-! ### Reading what is spelled -/

/-- The characters that are tokens by themselves or begin one that is neither a word nor a
number. -/
def punctuation : List Char := '^' :: Text.Quoted.tick :: (marks.map Prod.snd ++ binaries)

theorem read_of_not_punctuation {c : Char} (hc : c ∉ punctuation) (p : Position)
    (cs : List Char) :
    read p c cs =
      if c.isAlpha then word p c cs
      else if c.isDigit then digits p c cs
      else .unknown c ⟨p.offset, (p.advance c).offset⟩ ⟨cs, p.advance c⟩ := by
  have hbinary : isBinary c = false := by
    rw [← Bool.not_eq_true, isBinary, List.contains_iff_mem]
    intro h
    exact hc (by simp [punctuation, h])
  simp only [punctuation, marks, List.map_cons, List.map_nil, List.mem_cons, List.cons_append,
    not_or] at hc
  simp [read, hc, hbinary]

theorem read_of_isAlpha {c : Char} (hc : c.isAlpha = true) (p : Position) (cs : List Char) :
    read p c cs = word p c cs := by
  have hnone : ∀ d ∈ punctuation, d.isAlpha = false := by
    simp [punctuation, marks, binaries, Text.Quoted.tick]
  have hp : c ∉ punctuation := fun h => by simp [hnone c h] at hc
  rw [read_of_not_punctuation hp, if_pos hc]

theorem read_of_isDigit {c : Char} (hc : c.isDigit = true) (p : Position) (cs : List Char) :
    read p c cs = digits p c cs := by
  have hnone : ∀ d ∈ punctuation, d.isDigit = false := by
    simp [punctuation, marks, binaries, Text.Quoted.tick]
  have hp : c ∉ punctuation := fun h => by simp [hnone c h] at hc
  have halpha : ¬ c.isAlpha = true := by
    delta Char.isDigit at hc
    delta Char.isAlpha Char.isUpper Char.isLower
    simp only [Bool.and_eq_true, decide_eq_true_eq, Bool.or_eq_true, UInt32.le_iff_toNat_le,
      ge_iff_le] at hc ⊢
    simp at hc ⊢
    omega
  rw [read_of_not_punctuation hp, if_neg halpha, if_pos hc]

theorem read_of_isBinary {c : Char} (hc : isBinary c = true) (p : Position) (cs : List Char) :
    read p c cs = single .binary p c cs := by
  have hnone : ∀ d ∈ binaries, d ∉ '^' :: Text.Quoted.tick :: marks.map Prod.snd := by
    simp [marks, binaries, Text.Quoted.tick]
  have hp := hnone c (List.contains_iff_mem.mp hc)
  simp only [marks, List.map_cons, List.map_nil, List.mem_cons, not_or] at hp
  simp [read, hp, hc]

theorem word_of_not_colon {c : Char} {cs : List Char}
    (h : ∀ rest, cs.dropWhile Char.isAlphanum ≠ ':' :: rest) (p : Position) :
    word p c cs =
      .token
        (.leaf .identifier (String.ofList (c :: cs.takeWhile Char.isAlphanum))
          ⟨p.offset, (p.advanceAll (c :: cs.takeWhile Char.isAlphanum)).offset⟩)
        none
        (Cursor.settle ⟨cs.dropWhile Char.isAlphanum,
          p.advanceAll (c :: cs.takeWhile Char.isAlphanum)⟩) := by
  unfold word
  dsimp only
  split
  · exact absurd ‹_› (h _)
  · exact absurd ‹_› (h _)
  · rfl

theorem word_of_colon {c : Char} {cs rest : List Char}
    (h : cs.dropWhile Char.isAlphanum = ':' :: rest) (hr : ∀ more, rest ≠ '=' :: more)
    (p : Position) :
    word p c cs =
      .token
        (.leaf .keyword (String.ofList (c :: (cs.takeWhile Char.isAlphanum ++ [':'])))
          ⟨p.offset, (p.advanceAll (c :: (cs.takeWhile Char.isAlphanum ++ [':']))).offset⟩)
        none
        (Cursor.settle ⟨rest, p.advanceAll (c :: (cs.takeWhile Char.isAlphanum ++ [':']))⟩) := by
  unfold word
  dsimp only
  split
  · rename_i more heq
    exact absurd (List.cons.inj (h.symm.trans heq)).2 (hr more)
  · rename_i found _ heq
    obtain rfl := (List.cons.inj (h.symm.trans heq)).2
    simp [Position.advanceAll_append]
  · rename_i hno
    exact absurd h (hno rest)

theorem word_of_assignment {c : Char} {cs rest : List Char}
    (h : cs.dropWhile Char.isAlphanum = ':' :: '=' :: rest) (p : Position) :
    word p c cs =
      .token
        (.leaf .identifier (String.ofList (c :: cs.takeWhile Char.isAlphanum))
          ⟨p.offset, (p.advanceAll (c :: cs.takeWhile Char.isAlphanum)).offset⟩)
        (some (.bare .assignment
          ⟨(p.advanceAll (c :: cs.takeWhile Char.isAlphanum)).offset,
            ((p.advanceAll (c :: cs.takeWhile Char.isAlphanum)).advanceAll [':', '=']).offset⟩))
        ⟨rest, (p.advanceAll (c :: cs.takeWhile Char.isAlphanum)).advanceAll [':', '=']⟩ := by
  simp only [word, h]

theorem colon_of_not_equals {cs : List Char} (h : ∀ rest, cs ≠ '=' :: rest) (p : Position) :
    colon p cs = .token (.leaf .colon ":" ⟨p.offset, (p.advance ':').offset⟩) none
      (Cursor.settle ⟨cs, p.advance ':'⟩) := by
  unfold colon
  split
  · exact absurd rfl (h _)
  · rfl

theorem starts_of_not_separator {c : Char} (hc : c ∉ separators) : Starts c := by
  refine ⟨?_, fun h => hc (h ▸ List.mem_cons_self)⟩
  rw [← Bool.not_eq_true, isBlank, List.contains_iff_mem]
  exact fun h => hc (List.mem_cons_of_mem _ h)

/-- A token with nothing or a gap behind it. -/
def Finds (offset : Nat) (lexeme tail : List Char) (kind : Kind) (text : Option String)
    (scan : Scan) : Prop :=
  ∃ behind : Cursor, behind.rest = tail ∧
    behind.position.offset = offset + byteLength lexeme ∧
    scan = .token ⟨kind, text, [], ⟨offset, offset + byteLength lexeme⟩⟩ none behind

theorem single_finds (kind : Kind) (p : Position) (c : Char) (tail : List Char) :
    Finds p.offset [c] tail kind (some (String.ofList [c])) (single kind p c tail) :=
  ⟨⟨tail, p.advance c⟩, rfl, by simp [Position.advance],
    by simp [single, Node.leaf, Position.advance]⟩

theorem word_finds_identifier {c : Char} {cs tail : List Char} (ht : Breaks tail)
    (hcs : ∀ d ∈ cs, d.isAlphanum = true) (p : Position) :
    Finds p.offset (c :: cs) tail .identifier (some (String.ofList (c :: cs)))
      (word p c (cs ++ tail)) := by
  obtain ⟨hnone, hall⟩ := ht.stops isAlphanum_of_separator
  have htake : (cs ++ tail).takeWhile Char.isAlphanum = cs := by
    rw [List.takeWhile_append_of_pos hcs, hnone, List.append_nil]
  have hdrop : (cs ++ tail).dropWhile Char.isAlphanum = tail := by
    rw [List.dropWhile_append_of_pos hcs, hall]
  have hcolon : ∀ rest, (cs ++ tail).dropWhile Char.isAlphanum ≠ ':' :: rest := by
    intro rest
    rw [hdrop]
    exact ht.not_cons (by decide)
  refine ⟨.settle ⟨tail, p.advanceAll (c :: cs)⟩, by simp, ?_, ?_⟩
  · simp [Position.advanceAll_offset, Position.advance, Nat.add_assoc]
  · rw [word_of_not_colon hcolon, htake, hdrop]
    simp [Node.leaf, Position.advanceAll_offset, Position.advance, Nat.add_assoc]

theorem word_finds_keyword {c : Char} {cs tail : List Char} (ht : Breaks tail)
    (hcs : ∀ d ∈ cs, d.isAlphanum = true) (p : Position) :
    Finds p.offset (c :: (cs ++ [':'])) tail .keyword
      (some (String.ofList (c :: (cs ++ [':'])))) (word p c (cs ++ ':' :: tail)) := by
  have htake : (cs ++ ':' :: tail).takeWhile Char.isAlphanum = cs := by
    rw [List.takeWhile_append_of_pos hcs]
    simp
  have hdrop : (cs ++ ':' :: tail).dropWhile Char.isAlphanum = ':' :: tail := by
    rw [List.dropWhile_append_of_pos hcs]
    simp
  refine ⟨.settle ⟨tail, p.advanceAll (c :: (cs ++ [':']))⟩, by simp, ?_, ?_⟩
  · simp [Position.advanceAll_offset, Position.advance, Nat.add_assoc]
  · rw [word_of_colon hdrop (fun _ => ht.not_cons (by decide)), htake]
    simp [Node.leaf, Position.advanceAll_offset, Position.advance, Nat.add_assoc]

theorem digits_finds {c : Char} {cs tail : List Char}
    (ht : ∀ d ∈ tail.head?, d.isDigit = false) (hcs : ∀ d ∈ cs, d.isDigit = true)
    (p : Position) :
    Finds p.offset (c :: cs) tail .integer (some (String.ofList (c :: cs)))
      (digits p c (cs ++ tail)) := by
  obtain ⟨hnone, hall⟩ := stops_of_head? ht
  have htake : (cs ++ tail).takeWhile Char.isDigit = cs := by
    rw [List.takeWhile_append_of_pos hcs, hnone, List.append_nil]
  have hdrop : (cs ++ tail).dropWhile Char.isDigit = tail := by
    rw [List.dropWhile_append_of_pos hcs, hall]
  refine ⟨.settle ⟨tail, p.advanceAll (c :: cs)⟩, by simp, ?_, ?_⟩
  · simp [Position.advanceAll_offset, Position.advance, Nat.add_assoc]
  · simp [digits, htake, hdrop, Node.leaf, Position.advanceAll_offset, Position.advance,
      Nat.add_assoc]

theorem quoted_finds {text tail : List Char} (ht : Breaks tail) (p : Position) :
    Finds p.offset (Text.Quoted.tick :: (Text.Quoted.encode text ++ [Text.Quoted.tick])) tail
      .string (some (String.ofList text))
      (quoted p Text.Quoted.tick (Text.Quoted.encode text ++ Text.Quoted.tick :: tail)) := by
  have hnot : Text.Quoted.tick ∉ separators := by decide
  have hhead : tail.head? ≠ some Text.Quoted.tick := fun h => hnot (ht _ h)
  refine ⟨.settle ⟨tail, p.advanceAll
    (Text.Quoted.tick :: (Text.Quoted.encode text ++ [Text.Quoted.tick]))⟩, by simp, ?_, ?_⟩
  · simp [Position.advanceAll_offset, Position.advance, Nat.add_assoc]
  · simp [quoted, Text.Quoted.split?_encode text hhead, Node.leaf, Position.advanceAll_offset,
      Position.advance, Nat.add_assoc]

theorem mark_finds {kind : Kind} {c : Char} (hc : (kind, c) ∈ marks) {tail : List Char}
    (ht : Breaks tail) (p : Position) :
    Finds p.offset [c] tail kind (some (String.ofList [c])) (read p c tail) := by
  simp only [marks, List.mem_cons, List.not_mem_nil, or_false, Prod.mk.injEq] at hc
  rcases hc with ⟨rfl, rfl⟩ | ⟨rfl, rfl⟩ | ⟨rfl, rfl⟩ | ⟨rfl, rfl⟩ | ⟨rfl, rfl⟩ | ⟨rfl, rfl⟩ |
    ⟨rfl, rfl⟩
  · refine ⟨.settle ⟨tail, p.advance ':'⟩, by simp, by simp [Position.advance], ?_⟩
    have hread : read p ':' tail = colon p tail := rfl
    rw [hread, colon_of_not_equals fun _ => ht.not_cons (by decide)]
    simp [Node.leaf, Position.advance]
  all_goals exact single_finds _ p _ tail

/-- A binary selector is found whatever follows it. -/
theorem binary_finds {c : Char} (hc : isBinary c = true) (p : Position) (tail : List Char) :
    Finds p.offset [c] tail .binary (some (String.ofList [c])) (scanFrom none p (c :: tail)) := by
  have hnone : ∀ d ∈ binaries, d ∉ separators := by
    simp [separators, blanks, quotationMark, binaries]
  have hnot := hnone c (List.contains_iff_mem.mp hc)
  rw [scanFrom_of_starts (starts_of_not_separator hnot), read_of_isBinary hc]
  exact single_finds _ p c tail

/-- Digits are found whatever follows them, if it is no digit. -/
theorem integer_finds {c : Char} {cs tail : List Char} (hc : c.isDigit = true)
    (hcs : ∀ d ∈ cs, d.isDigit = true) (ht : ∀ d ∈ tail.head?, d.isDigit = false)
    (p : Position) :
    Finds p.offset (c :: cs) tail .integer (some (String.ofList (c :: cs)))
      (scanFrom none p (c :: (cs ++ tail))) := by
  have hnot : c ∉ separators := fun hm => by
    have := isDigit_of_separator c hm
    simp_all
  rw [scanFrom_of_starts (starts_of_not_separator hnot), read_of_isDigit hc]
  exact digits_finds ht hcs p

/-- What is spelled in front of a gap or the end is found, with the kind and the text it
spells. -/
theorem scan_finds {kind : Kind} {text : Option String} {lexeme tail : List Char}
    (h : Spelling kind text lexeme) (ht : Breaks tail) (p : Position) :
    Finds p.offset lexeme tail kind text (scanFrom none p (lexeme ++ tail)) := by
  have hstart : ∀ {c : Char} {cs : List Char} (hc : c ∉ separators),
      scanFrom none p (c :: cs) = read p c cs :=
    fun hc => scanFrom_of_starts (starts_of_not_separator hc) p _
  cases h with
  | @identifier c cs hc hcs =>
      have hnot : c ∉ separators := fun hm => by
        have := isAlphanum_of_separator c hm
        simp_all [Char.isAlphanum]
      rw [List.cons_append, hstart hnot, read_of_isAlpha hc]
      exact word_finds_identifier ht hcs p
  | @keyword c cs hc hcs =>
      have hnot : c ∉ separators := fun hm => by
        have := isAlphanum_of_separator c hm
        simp_all [Char.isAlphanum]
      rw [List.cons_append, hstart hnot, read_of_isAlpha hc, List.append_assoc]
      exact word_finds_keyword ht hcs p
  | binary hc => exact binary_finds hc p tail
  | integer hc hcs =>
      exact integer_finds hc hcs (fun d hd => isDigit_of_separator d (ht d hd)) p
  | @mark _ c hc =>
      have hnone : ∀ entry ∈ marks, entry.2 ∉ separators := by decide
      rw [List.cons_append, hstart (hnone _ hc)]
      exact mark_finds hc ht p
  | answer =>
      rw [List.cons_append, hstart (by decide)]
      exact ⟨⟨tail, p.advance '^'⟩, rfl, by simp [Position.advance],
        by simp [read, caret, Node.bare, Position.advance]⟩
  | assignment =>
      rw [List.cons_append, hstart (by decide)]
      refine ⟨⟨tail, p.advanceAll [':', '=']⟩, rfl, ?_, ?_⟩
      · simp [Position.advance, Nat.add_assoc]
      · have hread : read p ':' ('=' :: tail) = colon p ('=' :: tail) := rfl
        rw [List.cons_append, List.nil_append, hread]
        simp [colon, Node.bare, Position.advance, Nat.add_assoc]
  | string =>
      rw [List.cons_append, hstart (by decide), List.append_assoc]
      exact quoted_finds ht p

/-- The characters of a token determine its kind and its text. -/
theorem Spelling.unique {kind other : Kind} {text text' : Option String} {lexeme : List Char}
    (h : Spelling kind text lexeme) (h' : Spelling other text' lexeme) :
    other = kind ∧ text' = text := by
  obtain ⟨behind, -, -, hscan⟩ := scan_finds h breaks_nil .start
  obtain ⟨behind', -, -, hscan'⟩ := scan_finds h' breaks_nil .start
  rw [hscan] at hscan'
  simp_all

end Token

end MiniSmalltalk
