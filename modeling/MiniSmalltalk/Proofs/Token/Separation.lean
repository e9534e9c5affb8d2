import MiniSmalltalk.Proofs.Token.Spelling

/-! # Separated sources

A gap between two sources keeps their tokens apart: the tokens of the whole are those of the
first source and, moved by what stands in front of it, those of the second. Behind a token the
end of a source and a gap are the same to a scan, and no scan depends on where it begins. -/

namespace MiniSmalltalk

/-- A span in a source that begins some bytes later. -/
def Span.shift (bytes : Nat) (span : Span) : Span := ⟨span.start + bytes, span.stop + bytes⟩

def Node.shift (bytes : Nat) (token : Node) : Node :=
  { token with span := token.span.shift bytes }

/-- The bytes in front of the end of the text. -/
def Cursor.total (cursor : Cursor) : Nat := cursor.position.offset + byteLength cursor.rest

/-- A cursor some bytes later, with more text at the end. -/
structure Cursor.Moved (bytes : Nat) (tail : List Char) (cursor moved : Cursor) : Prop where
  rest_eq : moved.rest = cursor.rest ++ tail
  offset_eq : moved.position.offset = cursor.position.offset + bytes

namespace Token

/-! ### One scan -/

/-- What a scan comes to some bytes later and with a tail behind the text, `total` being where
the text ends. Where the text has no more tokens the scan goes on in the tail, and a literal or
comment is open at the end only if there is no tail that could close it. -/
def Moved (bytes : Nat) (tail : List Char) (total : Nat) : Scan → Scan → Prop
  | .finished _, moved =>
      ∃ position : Position, position.offset = total + bytes ∧
        moved = scanFrom none position tail
  | .token first queued behind, moved =>
      behind.total = total ∧ ∃ behind', behind.Moved bytes tail behind' ∧
        moved = .token (first.shift bytes) (queued.map (Node.shift bytes)) behind'
  | .unknown character span behind, moved =>
      behind.total = total ∧ ∃ behind', behind.Moved bytes tail behind' ∧
        moved = .unknown character (span.shift bytes) behind'
  | .unclosed opening behind, moved =>
      tail = [] → ∃ opening' behind', behind.Moved bytes tail behind' ∧
        opening'.cause = opening.cause ∧ opening'.start = opening.start + bytes ∧
        moved = .unclosed opening' behind'

theorem Moved.ite {test : Prop} [Decidable test] {yes no yes' no' : Scan} {bytes total : Nat}
    {tail : List Char} (hy : test → Moved bytes tail total yes yes')
    (hn : ¬ test → Moved bytes tail total no no') :
    Moved bytes tail total (if test then yes else no) (if test then yes' else no') := by
  by_cases h : test
  · rw [if_pos h, if_pos h]
    exact hy h
  · rw [if_neg h, if_neg h]
    exact hn h

theorem Breaks.append_ne {tail cs : List Char} (ht : Breaks tail) {c : Char} (hc : c ∉ separators)
    (h : ∀ rest, cs ≠ c :: rest) : ∀ rest, cs ++ tail ≠ c :: rest := by
  intro rest heq
  cases cs with
  | nil => exact ht.not_cons hc heq
  | cons d cs =>
      obtain ⟨rfl, -⟩ := List.cons.inj heq
      exact h cs rfl

theorem head?_of_split? {cs text rest : List Char}
    (h : Text.Quoted.split? cs = some (text, rest)) : rest.head? ≠ some Text.Quoted.tick := by
  fun_induction Text.Quoted.split? cs generalizing text rest with
  | case1 => simp at h
  | case2 => simp_all
  | case3 => simp at h
  | case4 cs ih =>
      obtain ⟨found, hf, he⟩ := Option.map_eq_some_iff.mp h
      obtain ⟨-, rfl⟩ := Prod.mk.inj he
      exact ih hf
  | case5 d cs hd =>
      obtain ⟨-, rfl⟩ := Prod.mk.inj (Option.some.inj h)
      simpa using hd
  | case6 c d cs hc ih =>
      obtain ⟨found, hf, he⟩ := Option.map_eq_some_iff.mp h
      obtain ⟨-, rfl⟩ := Prod.mk.inj he
      exact ih hf

theorem Breaks.head?_append_ne {tail cs : List Char} (ht : Breaks tail)
    (h : cs.head? ≠ some Text.Quoted.tick) : (cs ++ tail).head? ≠ some Text.Quoted.tick := by
  cases cs with
  | nil => exact fun hc => absurd (ht _ hc) (by decide)
  | cons c cs => exact h

section

variable {bytes : Nat} {tail : List Char} {p q : Position} (hq : q.offset = p.offset + bytes)

include hq

theorem advanceAll_offset_moved (cs : List Char) :
    (q.advanceAll cs).offset = (p.advanceAll cs).offset + bytes := by
  rw [Position.advanceAll_offset, Position.advanceAll_offset, hq]
  omega

theorem cursor_moved (lexeme rest : List Char) :
    Cursor.Moved bytes tail ⟨rest, p.advanceAll lexeme⟩ ⟨rest ++ tail, q.advanceAll lexeme⟩ :=
  ⟨rfl, advanceAll_offset_moved hq lexeme⟩

theorem settle_moved (lexeme rest : List Char) :
    Cursor.Moved bytes tail (.settle ⟨rest, p.advanceAll lexeme⟩)
      (.settle ⟨rest ++ tail, q.advanceAll lexeme⟩) := by
  have hmoved := @cursor_moved bytes tail p q hq lexeme rest
  exact ⟨by simp, by simpa using hmoved.offset_eq⟩

theorem token_moved (kind : Kind) (text : Option String) {lexeme rest cs : List Char}
    {behind behind' : Cursor} (hs : cs = lexeme ++ rest) (hr : behind.rest = rest)
    (ho : behind.position.offset = (p.advanceAll lexeme).offset)
    (hb : behind.Moved bytes tail behind') :
    Moved bytes tail (p.offset + byteLength cs)
      (.token ⟨kind, text, [], ⟨p.offset, (p.advanceAll lexeme).offset⟩⟩ none behind)
      (.token ⟨kind, text, [], ⟨q.offset, (q.advanceAll lexeme).offset⟩⟩ none behind') := by
  refine ⟨?_, behind', hb, ?_⟩
  · rw [Cursor.total, hr, ho, hs, Position.advanceAll_offset, byteLength_append, Nat.add_assoc]
  · rw [advanceAll_offset_moved hq, hq]
    rfl

/-- The scan of a token that ended where its characters did. -/
theorem settled_moved (kind : Kind) (text : Option String) {lexeme rest cs : List Char}
    (hs : cs = lexeme ++ rest) :
    Moved bytes tail (p.offset + byteLength cs)
      (.token ⟨kind, text, [], ⟨p.offset, (p.advanceAll lexeme).offset⟩⟩ none
        (.settle ⟨rest, p.advanceAll lexeme⟩))
      (.token ⟨kind, text, [], ⟨q.offset, (q.advanceAll lexeme).offset⟩⟩ none
        (.settle ⟨rest ++ tail, q.advanceAll lexeme⟩)) :=
  token_moved hq kind text hs (Cursor.settle_rest _) (Cursor.settle_offset _)
    (settle_moved hq lexeme rest)

theorem single_moved (kind : Kind) (c : Char) (cs : List Char) :
    Moved bytes tail (p.offset + byteLength (c :: cs)) (single kind p c cs)
      (single kind q c (cs ++ tail)) :=
  token_moved hq kind (some (String.singleton c)) rfl rfl rfl (cursor_moved hq [c] cs)

theorem digits_moved (ht : Breaks tail) (c : Char) (cs : List Char) :
    Moved bytes tail (p.offset + byteLength (c :: cs)) (digits p c cs)
      (digits q c (cs ++ tail)) := by
  rw [digits, digits, takeWhile_append_of_breaks ht isDigit_of_separator,
    dropWhile_append_of_breaks ht isDigit_of_separator]
  exact settled_moved hq _ _ (by simp)

theorem colon_moved (ht : Breaks tail) (cs : List Char) :
    Moved bytes tail (p.offset + byteLength (':' :: cs)) (colon p cs)
      (colon q (cs ++ tail)) := by
  by_cases h : ∃ rest, cs = '=' :: rest
  · obtain ⟨rest, rfl⟩ := h
    exact @token_moved _ _ _ _ hq .assignment none [':', '='] rest _ _ _ rfl rfl rfl
      (cursor_moved hq _ rest)
  · have hrest : ∀ rest, cs ≠ '=' :: rest := fun rest hr => h ⟨rest, hr⟩
    rw [colon_of_not_equals hrest, colon_of_not_equals (ht.append_ne (by decide) hrest)]
    exact @settled_moved _ _ _ _ hq .colon (some ":") [':'] cs _ rfl

theorem word_moved (ht : Breaks tail) (c : Char) (cs : List Char) :
    Moved bytes tail (p.offset + byteLength (c :: cs)) (word p c cs)
      (word q c (cs ++ tail)) := by
  have htake := takeWhile_append_of_breaks ht isAlphanum_of_separator cs
  have hdrop := dropWhile_append_of_breaks ht isAlphanum_of_separator cs
  have hsplit : c :: cs = (c :: cs.takeWhile Char.isAlphanum) ++ cs.dropWhile Char.isAlphanum := by
    simp
  by_cases hcolon : ∃ rest, cs.dropWhile Char.isAlphanum = ':' :: rest
  · obtain ⟨rest, hrest⟩ := hcolon
    rw [hrest] at hdrop hsplit
    by_cases hassign : ∃ more, rest = '=' :: more
    · obtain ⟨more, rfl⟩ := hassign
      have hname := advanceAll_offset_moved hq (c :: cs.takeWhile Char.isAlphanum)
      rw [word_of_assignment hrest, word_of_assignment hdrop, htake]
      refine ⟨?_, _, cursor_moved hname [':', '='] more, ?_⟩
      · rw [hsplit, Cursor.total, Position.advanceAll_offset, Position.advanceAll_offset,
          byteLength_append]
        simp [Nat.add_assoc]
      · rw [advanceAll_offset_moved hname, hname, hq]
        rfl
    · have hmore : ∀ more, rest ≠ '=' :: more := fun more h => hassign ⟨more, h⟩
      rw [word_of_colon hrest hmore, word_of_colon hdrop (ht.append_ne (by decide) hmore), htake]
      exact settled_moved hq _ _ (by simp [hsplit])
  · have hmore : ∀ rest, cs.dropWhile Char.isAlphanum ≠ ':' :: rest :=
      fun rest h => hcolon ⟨rest, h⟩
    have hmore' := ht.append_ne (by decide) hmore
    rw [← hdrop] at hmore'
    rw [word_of_not_colon hmore, word_of_not_colon hmore', htake, hdrop]
    exact settled_moved hq _ _ hsplit

theorem quoted_moved (ht : Breaks tail) (c : Char) (cs : List Char) :
    Moved bytes tail (p.offset + byteLength (c :: cs)) (quoted p c cs)
      (quoted q c (cs ++ tail)) := by
  cases hs : Text.Quoted.split? cs with
  | some found =>
      obtain ⟨text, rest⟩ := found
      have hcs := Text.Quoted.eq_encode_of_split? cs hs
      have hs' : Text.Quoted.split? (cs ++ tail) = some (text, rest ++ tail) := by
        rw [hcs, List.append_assoc, List.cons_append]
        exact Text.Quoted.split?_encode text (ht.head?_append_ne (head?_of_split? hs))
      simp only [quoted, hs, hs']
      exact settled_moved hq _ _ (by simp [hcs])
  | none =>
      simp only [quoted, hs]
      rintro rfl
      simp only [List.append_nil, hs]
      exact ⟨.string q.offset, _, cursor_moved hq (c :: cs) [], rfl, hq, by simp⟩

theorem read_moved (ht : Breaks tail) (c : Char) (cs : List Char) :
    Moved bytes tail (p.offset + byteLength (c :: cs)) (read p c cs) (read q c (cs ++ tail)) := by
  unfold read
  refine .ite ?_ fun _ => ?_
  · rintro rfl
    exact @token_moved _ _ _ _ hq .answer none ['^'] cs _ _ _ rfl rfl rfl
      (cursor_moved hq ['^'] cs)
  iterate 6 refine .ite (fun _ => single_moved hq _ c cs) fun _ => ?_
  refine .ite (fun _ => quoted_moved hq ht c cs) fun _ => .ite ?_ fun _ =>
    .ite (fun _ => single_moved hq _ c cs) fun _ => .ite (fun _ => word_moved hq ht c cs) fun _ =>
    .ite (fun _ => digits_moved hq ht c cs) fun _ => ?_
  · rintro rfl
    exact colon_moved hq ht cs
  · refine ⟨?_, _, cursor_moved hq [c] cs, ?_⟩
    · simp [Cursor.total, Position.advance, Nat.add_assoc]
    · simp [Span.shift, Position.advance, hq]
      omega

end

theorem Moved.of_total_eq {bytes : Nat} {tail : List Char} {total other : Nat} {scan moved : Scan}
    (h : Moved bytes tail total scan moved) (he : total = other) :
    Moved bytes tail other scan moved := he ▸ h

theorem scan_moved {bytes : Nat} {tail : List Char} (ht : Breaks tail) {cursor moved : Cursor}
    (hm : cursor.Moved bytes tail moved) :
    Moved bytes tail cursor.total (scan cursor) (scan moved) := by
  obtain ⟨cs, p⟩ := cursor
  obtain ⟨_, q⟩ := moved
  obtain ⟨rfl, hq⟩ := hm
  simp only [scan]
  cases layout cs with
  | gap hg =>
      have hscan := scanFrom_gap hg p []
      rw [List.append_nil] at hscan
      rw [hscan, scanFrom_gap hg]
      refine ⟨_, ?_, rfl⟩
      rw [advanceAll_offset_moved hq, Position.advanceAll_offset, Cursor.total]
  | @token gap rest c hg hc =>
      rw [List.append_assoc, scanFrom_gap hg, scanFrom_gap hg, List.cons_append,
        scanFrom_of_starts hc, scanFrom_of_starts hc]
      refine (read_moved (advanceAll_offset_moved hq gap) ht c rest).of_total_eq ?_
      rw [Position.advanceAll_offset, Cursor.total, byteLength_append, Nat.add_assoc]
  | @unclosed gap body hg hb =>
      rw [scanFrom_gap hg, scanFrom_quotationMark, scanFrom_unclosed hb]
      rintro rfl
      have hgap := advanceAll_offset_moved hq gap
      rw [List.append_nil, scanFrom_gap hg, scanFrom_quotationMark, scanFrom_unclosed hb]
      exact ⟨.comment (q.advanceAll gap).offset, _, cursor_moved hgap (quotationMark :: body) [],
        rfl, hgap, rfl⟩

end Token

open Token

/-! ### All readings -/

/-- A fault in a source that begins some bytes later: its cause and its span, but not the line
and column, which depend on the text in front. -/
structure LexicalFault.Moved (bytes : Nat) (fault moved : LexicalFault) : Prop where
  cause_eq : moved.cause = fault.cause
  span_eq : moved.span = fault.span.shift bytes

/-- What readings come to some bytes later and with a tail behind their text, which ends at
`total`. They are followed by those of the tail, unless a literal or comment is open at the end
of the text. -/
inductive ReadingsMoved (bytes : Nat) (tail : List Char) (total : Nat) :
    List Reading → List Reading → Prop where
  | tail (position : Position) : position.offset = total + bytes →
      ReadingsMoved bytes tail total [] (Cursor.readings ⟨tail, position⟩)
  | token (token : Node) {later later' : List Reading} :
      ReadingsMoved bytes tail total later later' →
      ReadingsMoved bytes tail total (.ok token :: later) (.ok (token.shift bytes) :: later')
  | unknown {fault fault' : LexicalFault} {later later' : List Reading} :
      fault.Moved bytes fault' → ReadingsMoved bytes tail total later later' →
      ReadingsMoved bytes tail total (.error fault :: later) (.error fault' :: later')
  | unclosed (opening : Opening) (behind : Cursor) (moved : List Reading) :
      (tail = [] → ∃ fault', (behind.unclosed opening).Moved bytes fault' ∧
        moved = [.error fault']) →
      ReadingsMoved bytes tail total [.error (behind.unclosed opening)] moved

theorem Cursor.readings_congr {cursor other : Cursor}
    (h : Token.scan cursor = Token.scan other) : cursor.readings = other.readings := by
  cases ho : Token.scan other with
  | finished behind => rw [readings_of_finished ho, readings_of_finished (h.trans ho)]
  | token first queued behind => rw [readings_of_token ho, readings_of_token (h.trans ho)]
  | unknown character span behind => rw [readings_of_unknown ho, readings_of_unknown (h.trans ho)]
  | unclosed opening behind => rw [readings_of_unclosed ho, readings_of_unclosed (h.trans ho)]

theorem Cursor.readings_gap {gap : List Char} (hg : Gap gap) (p : Position) (rest : List Char) :
    Cursor.readings ⟨gap ++ rest, p⟩ = Cursor.readings ⟨rest, p.advanceAll gap⟩ :=
  readings_congr (scanFrom_gap hg p rest)

theorem Cursor.readings_moved {bytes : Nat} {tail : List Char} (ht : Breaks tail)
    {cursor moved : Cursor} (hm : cursor.Moved bytes tail moved) :
    ReadingsMoved bytes tail cursor.total cursor.readings moved.readings := by
  have hs := scan_moved ht hm
  fun_induction readings cursor generalizing moved with
  | case1 cursor behind hscan =>
      rw [hscan] at hs
      obtain ⟨position, hoffset, hmoved⟩ := hs
      rw [@readings_congr moved ⟨tail, position⟩ hmoved]
      exact .tail position hoffset
  | case2 cursor token queued behind hscan ih =>
      rw [hscan] at hs
      obtain ⟨htotal, behind', hb, hmoved⟩ := hs
      rw [readings_of_token hmoved]
      have hlater := ih hb (scan_moved ht hb)
      rw [htotal] at hlater
      cases queued with
      | none => exact .token token hlater
      | some second => exact .token token (.token second hlater)
  | case3 cursor character span behind hscan ih =>
      rw [hscan] at hs
      obtain ⟨htotal, behind', hb, hmoved⟩ := hs
      rw [readings_of_unknown hmoved]
      have hlater := ih hb (scan_moved ht hb)
      rw [htotal] at hlater
      exact .unknown ⟨rfl, rfl⟩ hlater
  | case4 cursor opening behind hscan =>
      rw [hscan] at hs
      refine .unclosed opening behind _ fun hnil => ?_
      obtain ⟨opening', behind', hb, hcause, hstart, hmoved⟩ := hs hnil
      rw [readings_of_unclosed hmoved]
      refine ⟨_, ⟨hcause, ?_⟩, rfl⟩
      simp [unclosed, fault, Span.shift, hstart, hb.offset_eq]

namespace ReadingsMoved

variable {bytes : Nat} {tail : List Char} {total : Nat}

theorem tokens {tokens : List Node} {moved : List Reading}
    (h : ReadingsMoved bytes tail total (tokens.map .ok) moved) :
    ∃ position : Position, position.offset = total + bytes ∧
      moved = (tokens.map (Node.shift bytes)).map .ok ++ Cursor.readings ⟨tail, position⟩ := by
  induction tokens generalizing moved with
  | nil =>
      cases h with
      | tail position ho => exact ⟨position, ho, rfl⟩
  | cons token tokens ih =>
      cases h with
      | token _ hlater =>
          obtain ⟨position, ho, rfl⟩ := ih hlater
          exact ⟨position, ho, rfl⟩

/-- The first fault is where it was, unless it is that of a literal or comment to which the tail
could bring the end. -/
theorem fault {tokens : List Node} {fault : LexicalFault} {later moved : List Reading}
    (h : ReadingsMoved bytes tail total (tokens.map .ok ++ .error fault :: later) moved)
    (hf : tail = [] ∨ ∃ c, fault.cause = .unknownCharacter c) :
    ∃ fault' later', fault.Moved bytes fault' ∧
      moved = (tokens.map (Node.shift bytes)).map .ok ++ .error fault' :: later' := by
  induction tokens generalizing moved with
  | nil =>
      cases h with
      | unknown hmoved _ => exact ⟨_, _, hmoved, rfl⟩
      | unclosed opening behind _ hopen =>
          rcases hf with hnil | ⟨c, hc⟩
          · obtain ⟨fault', hmoved, rfl⟩ := hopen hnil
            exact ⟨fault', [], hmoved, rfl⟩
          · cases opening <;> cases hc
  | cons token tokens ih =>
      cases h with
      | token _ hlater =>
          obtain ⟨fault', later', hmoved, rfl⟩ := ih hlater
          exact ⟨fault', later', hmoved, rfl⟩

end ReadingsMoved

/-! ### Two sources -/

@[simp] theorem Node.shift_zero : Node.shift 0 = id := by
  funext token
  cases token
  rfl

theorem ahead_ofString (source : String) :
    (TokenStream.ofString source).ahead = Cursor.readings ⟨source.toList, .start⟩ := rfl

theorem readings_separated {gap : List Char} (hg : Gap gap) (hne : gap ≠ [])
    (first second : String) :
    ReadingsMoved 0 (gap ++ second.toList) (byteLength first.toList)
      (TokenStream.ofString first).ahead
      (TokenStream.ofString (first ++ String.ofList gap ++ second)).ahead := by
  have hbreaks := hg.breaks hne second.toList
  have hmoved : Cursor.Moved 0 (gap ++ second.toList) ⟨first.toList, .start⟩
      ⟨(first ++ String.ofList gap ++ second).toList, .start⟩ := ⟨by simp, rfl⟩
  simpa [Cursor.total, Position.start, ahead_ofString] using Cursor.readings_moved hbreaks hmoved

/-- Whatever follows a gap is read as a source of its own. -/
theorem readings_behind_gap {gap : List Char} (hg : Gap gap) (second : String) {bytes : Nat}
    {position : Position} (ho : position.offset + byteLength gap = bytes) :
    ReadingsMoved bytes [] (byteLength second.toList) (TokenStream.ofString second).ahead
      (Cursor.readings ⟨gap ++ second.toList, position⟩) := by
  have hmoved : Cursor.Moved bytes [] ⟨second.toList, .start⟩
      ⟨second.toList, position.advanceAll gap⟩ := by
    refine ⟨by simp, ?_⟩
    simp [Position.advanceAll_offset, Position.start, ho]
  rw [Cursor.readings_gap hg]
  simpa [Cursor.total, Position.start, ahead_ofString] using
    Cursor.readings_moved breaks_nil hmoved

/-- A gap between two sources keeps their tokens apart: the tokens of both follow one another,
a fault of the second is found where it has come to stand, and a character of the first source
that begins no token is reported as if nothing followed. -/
theorem tokenize_separated (first second separator : String) (hg : Gap separator.toList)
    (hne : separator ≠ "") :
    (∀ tokens tokens', tokenize first = .ok tokens → tokenize second = .ok tokens' →
      tokenize (first ++ separator ++ second) =
        .ok (tokens ++ tokens'.map (Node.shift (first ++ separator).utf8ByteSize))) ∧
    (∀ tokens fault, tokenize first = .ok tokens → tokenize second = .error fault →
      ∃ fault', tokenize (first ++ separator ++ second) = .error fault' ∧
        fault'.cause = fault.cause ∧
        fault'.span = fault.span.shift (first ++ separator).utf8ByteSize) ∧
    ∀ fault character, tokenize first = .error fault →
      fault.cause = .unknownCharacter character →
      ∃ fault', tokenize (first ++ separator ++ second) = .error fault' ∧
        fault'.cause = fault.cause ∧ fault'.span = fault.span := by
  have hgap : separator.toList ≠ [] := by simpa using hne
  have hall := readings_separated hg hgap first second
  rw [String.ofList_toList] at hall
  have htokens : ∀ tokens : List Node, tokenize first = .ok tokens → ∃ later,
      (TokenStream.ofString (first ++ separator ++ second)).ahead = tokens.map .ok ++ later ∧
      ReadingsMoved (first ++ separator).utf8ByteSize [] (byteLength second.toList)
        (TokenStream.ofString second).ahead later := by
    intro tokens hfirst
    rw [tokenize_eq_ok_iff.mp hfirst] at hall
    obtain ⟨position, ho, hahead⟩ := hall.tokens
    refine ⟨_, by simpa using hahead, readings_behind_gap hg second ?_⟩
    rw [ho, ← byteLength_toList]
    simp
  refine ⟨?_, ?_, ?_⟩
  · intro tokens tokens' hfirst hsecond
    obtain ⟨later, hahead, hlater⟩ := htokens tokens hfirst
    rw [tokenize_eq_ok_iff.mp hsecond] at hlater
    obtain ⟨position, -, rfl⟩ := hlater.tokens
    rw [Cursor.readings_of_rest_nil rfl, List.append_nil] at hahead
    rw [tokenize_eq_ok_iff, hahead, List.map_append]
  · intro tokens fault hfirst hsecond
    obtain ⟨later, hahead, hlater⟩ := htokens tokens hfirst
    obtain ⟨tokens', others, hothers⟩ := tokenize_eq_error_iff.mp hsecond
    rw [hothers] at hlater
    obtain ⟨fault', later', hmoved, rfl⟩ := hlater.fault (.inl rfl)
    rw [← List.append_assoc, ← List.map_append] at hahead
    exact ⟨fault', tokenize_eq_error_iff.mpr ⟨_, later', hahead⟩, hmoved.cause_eq,
      hmoved.span_eq⟩
  · intro fault character hfirst hcause
    obtain ⟨tokens, others, hothers⟩ := tokenize_eq_error_iff.mp hfirst
    rw [hothers] at hall
    obtain ⟨fault', later', hmoved, hahead⟩ := hall.fault (.inr ⟨character, hcause⟩)
    exact ⟨fault', tokenize_eq_error_iff.mpr ⟨_, later', hahead⟩, hmoved.cause_eq,
      hmoved.span_eq⟩

/-- A comment is enough to separate, and neither literal nor comment of one source reaches into
the other. -/
theorem tokenize_separated_comment :
    Gap "\"b\"".toList ∧
    tokenize ("'é' a" ++ "\"b\"" ++ "b:=1") =
      .ok ([.leaf .string "é" ⟨0, 4⟩, .leaf .identifier "a" ⟨5, 6⟩] ++
        [.leaf .identifier "b" ⟨0, 1⟩, .bare .assignment ⟨1, 3⟩, .leaf .integer "1" ⟨3, 4⟩].map
          (Node.shift 9)) ∧
    (∃ fault, tokenize ("'é' a" ++ "\"b\"" ++ "x 'y") = .error fault ∧
      fault.cause = .unterminatedString ∧ fault.span = ⟨11, 13⟩) ∧
    ∃ fault, tokenize ("a # 'b" ++ "\"b\"" ++ "'") = .error fault ∧
      fault.cause = .unknownCharacter '#' ∧ fault.span = ⟨2, 3⟩ := by
  have hg : Gap "\"b\"".toList := @Gap.comment ['b'] [] (by decide) .nil
  refine ⟨hg, ?_, ?_, ?_⟩
  · exact (tokenize_separated "'é' a" "b:=1" _ hg (by decide)).1 _ _ rfl rfl
  · exact (tokenize_separated "'é' a" "x 'y" _ hg (by decide)).2.1 _ _ rfl rfl
  · exact (tokenize_separated "a # 'b" "'" _ hg (by decide)).2.2 _ '#' rfl rfl

end MiniSmalltalk
