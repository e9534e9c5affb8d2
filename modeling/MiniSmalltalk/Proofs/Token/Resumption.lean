import Mathlib.Data.List.Induction
import MiniSmalltalk.Proofs.Token.Bookkeeping
import MiniSmalltalk.Proofs.Token.Truncation

/-! # Reading on after a fault

Behind a character that begins no token, reading goes on as in a source that begins there. At the
end of the source, or in a literal or comment without end, it stays and answers alike ever after. It
takes at most one reading more than there are characters to get there. -/

namespace MiniSmalltalk

open TokenStream Token

/-! ### Counting on -/

theorem columnBehind_pos (front : List Char) : 0 < columnBehind front := by
  rw [columnBehind]
  omega

theorem lineBehind_append (front more : List Char) :
    lineBehind (front ++ more) = lineBehind front + (lineBehind more - 1) := by
  simp [lineBehind, Nat.add_assoc]

theorem columnBehind_append (front more : List Char) :
    columnBehind (front ++ more) =
      if lineBehind more = 1 then columnBehind front + (columnBehind more - 1)
      else columnBehind more := by
  induction more using List.reverseRecOn with
  | nil => simp [columnBehind, lineBehind]
  | append_singleton more c ih =>
      rw [← List.append_assoc, columnBehind_concat, columnBehind_concat, lineBehind_concat, ih]
      by_cases hc : c = '\n'
      · simp [hc, lineBehind]
      · have hpos := columnBehind_pos more
        simp only [hc, if_false]
        split
        · omega
        · rfl

theorem ofNat_add_of_pos {front more : Nat} (h : 0 < more) :
    UInt32.ofNat (front + (more - 1)) = .ofNat front + (.ofNat more - 1) := by
  obtain ⟨more, rfl⟩ := Nat.exists_eq_succ_of_ne_zero (Nat.ne_of_gt h)
  simp [UInt32.ofNat_add]

theorem ofNat_lineBehind_append (front more : List Char) :
    UInt32.ofNat (lineBehind (front ++ more)) =
      .ofNat (lineBehind front) + (.ofNat (lineBehind more) - 1) := by
  have hpos : 0 < lineBehind more := by
    rw [lineBehind]
    omega
  rw [lineBehind_append, ofNat_add_of_pos hpos]

/-- In 32 bits the line tells whether there is a newline, if there is room for all newlines. -/
theorem ofNat_columnBehind_append (front : List Char) {more : List Char}
    (h : lineBehind more < UInt32.size) :
    UInt32.ofNat (columnBehind (front ++ more)) =
      if UInt32.ofNat (lineBehind more) = 1 then
        .ofNat (columnBehind front) + (.ofNat (columnBehind more) - 1)
      else .ofNat (columnBehind more) := by
  have hone : UInt32.ofNat (lineBehind more) = 1 ↔ lineBehind more = 1 := by
    rw [← UInt32.toNat_inj, UInt32.toNat_ofNat_of_lt' h]
    rfl
  simp only [columnBehind_append, hone]
  split
  · exact ofNat_add_of_pos (columnBehind_pos more)
  · rfl

/-- The fault of a character that begins no token, behind some text. -/
def LexicalFault.ofUnknown (before : List Char) (c : Char) : LexicalFault :=
  { cause := .unknownCharacter c
    span := ⟨byteLength before, byteLength before + c.utf8Size⟩
    line := .ofNat (lineBehind (before ++ [c]))
    column := .ofNat (columnBehind (before ++ [c])) }

/-- A fault as it is reported in a source that goes on behind another fault. -/
def LexicalFault.countedOn (former fault : LexicalFault) : LexicalFault :=
  { cause := fault.cause
    span := fault.span.shift former.span.stop
    line := former.line + (fault.line - 1)
    column := if fault.line = 1 then former.column + (fault.column - 1) else fault.column }

namespace TokenStream.Answer

/-- An answer as it is given in a source that goes on behind a fault. -/
def countedOn (former : LexicalFault) : Answer → Answer
  | .found token => .found (token.map (Node.shift former.span.stop))
  | .taken => .taken
  | .fault later => .fault (former.countedOn later)

/-- No other answer follows. -/
def Final : Answer → Prop
  | .found token => token = none
  | .taken => False
  | .fault last => last.cause = .unterminatedString ∨ last.cause = .unterminatedComment

/-- An answer in a source that begins some bytes later, but for the line and column of a fault. -/
def Moved (bytes : Nat) : Answer → Answer → Prop
  | .found token, moved => moved = .found (token.map (Node.shift bytes))
  | .taken, moved => moved = .taken
  | .fault former, moved => ∃ later, former.Moved bytes later ∧ moved = .fault later

end TokenStream.Answer

/-! ### Scripts -/

namespace Cursor

variable {cursor behind : Cursor}

theorem script_of_finished (h : Token.scan cursor = .finished behind) (count : Nat) :
    cursor.script count = (.found none, behind.position) := by
  rw [script.eq_def, h]

theorem script_of_unclosed {opening : Opening} (h : Token.scan cursor = .unclosed opening behind)
    (count : Nat) :
    cursor.script count = (.fault (behind.unclosed opening), behind.position) := by
  rw [script.eq_def, h]

/-- The script of a source does not depend on what stands in front of it. -/
theorem script_moved {bytes : Nat} {moved : Cursor} (hm : cursor.Moved bytes [] moved)
    (count : Nat) : (cursor.script count).1.Moved bytes (moved.script count).1 := by
  have hs := scan_moved breaks_nil hm
  fun_induction script cursor count generalizing moved with
  | case1 count cursor behind hscan =>
      rw [hscan] at hs
      obtain ⟨position, -, hmoved⟩ := hs
      rw [@script_of_finished moved ⟨[], position⟩ hmoved]
      rfl
  | case2 cursor token queued behind hscan =>
      rw [hscan] at hs
      obtain ⟨-, behind', -, hmoved⟩ := hs
      rw [script.eq_def, hmoved]
      rfl
  | case3 cursor token behind count hscan ih =>
      rw [hscan] at hs
      obtain ⟨-, behind', hb, hmoved⟩ := hs
      rw [script.eq_def moved, hmoved]
      exact ih hb (scan_moved breaks_nil hb)
  | case4 cursor token queued behind hscan =>
      rw [hscan] at hs
      obtain ⟨-, behind', -, hmoved⟩ := hs
      rw [script.eq_def, hmoved]
      rfl
  | case5 cursor token queued behind count hscan ih =>
      rw [hscan] at hs
      obtain ⟨-, behind', hb, hmoved⟩ := hs
      rw [script.eq_def moved, hmoved]
      exact ih hb (scan_moved breaks_nil hb)
  | case6 cursor character span behind hscan =>
      rw [hscan] at hs
      obtain ⟨-, behind', -, hmoved⟩ := hs
      rw [script.eq_def, hmoved]
      exact ⟨behind'.fault (.unknownCharacter character) (span.shift bytes), ⟨rfl, rfl⟩, rfl⟩
  | case7 cursor character span behind count hscan ih =>
      rw [hscan] at hs
      obtain ⟨-, behind', hb, hmoved⟩ := hs
      rw [script.eq_def moved, hmoved]
      exact ih hb (scan_moved breaks_nil hb)
  | case8 count cursor opening behind hscan =>
      rw [hscan] at hs
      obtain ⟨opening', behind', hb, hcause, hstart, hmoved⟩ := hs rfl
      rw [script_of_unclosed hmoved]
      refine ⟨_, ⟨hcause, ?_⟩, rfl⟩
      simp [unclosed, fault, Span.shift, hstart, hb.offset_eq]

end Cursor

theorem TokenStream.outcome_moved {s t : TokenStream} (hs : s.pending = []) (hso : s.opening = none)
    (ht : t.pending = []) (hto : t.opening = none) {bytes : Nat}
    (hm : s.cursor.Moved bytes [] t.cursor) (count : Nat) :
    (s.outcome count).Moved bytes (t.outcome count) := by
  have hmoved := Cursor.script_moved hm count
  rw [← observed_eq_script hs hso, ← observed_eq_script ht hto] at hmoved
  exact hmoved

/-! ### Staying -/

namespace TokenStream

variable {s behind : TokenStream} {answer : Answer}

theorem final_unclosed (cursor : Cursor) (opening : Opening) :
    (Answer.fault (cursor.unclosed opening)).Final := by
  cases opening with
  | string start => exact .inl rfl
  | comment start => exact .inr rfl

/-- A final answer is given again by the stream that it leaves. -/
theorem Served.stays (h : s.Served answer behind) (hfinal : answer.Final) :
    behind.serve .read = (answer, behind) := by
  cases h with
  | pending hp => exact nomatch hfinal
  | finished hp ho hscan =>
      have hspec := Token.scan_spec s.cursor
      rw [hscan] at hspec
      exact serve_read_of_rest_nil hp ho hspec
  | token hp ho hscan => exact nomatch hfinal
  | unknown hp ho hscan => exact nomatch hfinal
  | @unclosed opening cursor hp ho hscan =>
      exact @serve_read_of_opening { s with cursor, opening := some opening } hp opening rfl
  | again hp ho => exact serve_read_of_opening hp ho

/-- An answer that is not final uses up a token given back or a character. -/
theorem Served.progress (h : s.Served answer behind) (hfinal : ¬ answer.Final) :
    behind.size < s.size := by
  have hspec := Token.scan_spec s.cursor
  cases h with
  | pending hp =>
      simp only [size, hp, List.length_cons]
      omega
  | finished hp ho hscan => exact absurd rfl hfinal
  | token hp ho hscan =>
      rw [hscan] at hspec
      have hlt := hspec.2.2
      simp only [size, hp, List.append_nil, List.length_nil]
      omega
  | unknown hp ho hscan =>
      rw [hscan] at hspec
      exact Nat.add_lt_add_left hspec _
  | unclosed hp ho hscan => exact absurd (final_unclosed _ _) hfinal
  | again hp ho => exact absurd (final_unclosed _ _) hfinal

theorem Served.cause_ne_unexpectedEnd {fault : LexicalFault} (h : s.Served (.fault fault) behind) :
    fault.cause ≠ .unexpectedEnd := by
  cases h with
  | unknown hp ho hscan => exact nofun
  | @unclosed opening cursor hp ho hscan => cases opening <;> exact nofun
  | @again opening hp ho => cases opening <;> exact nofun

theorem outcome_add (s : TokenStream) (first second : Nat) :
    s.outcome (first + second) = (s.afterReads first).outcome second := by
  rw [outcome, afterReads_add, outcome]

/-- Behind a final answer all answers are the same. -/
theorem outcome_of_final {count : Nat} (h : (s.outcome count).Final) (later : Nat) :
    s.outcome (count + 1 + later) = s.outcome count := by
  have hstays := (serve_read_served (s.afterReads count)).stays h
  rw [outcome_add, afterReads_succ_eq_serve, outcome, afterReads_of_stays hstays, hstays]
  rfl

/-- A final answer is given once all tokens and characters are used up. -/
theorem exists_final (s : TokenStream) : ∃ count ≤ s.size, (s.outcome count).Final := by
  induction hsize : s.size using Nat.strongRecOn generalizing s with
  | ind size ih =>
      by_cases hfinal : (s.serve .read).1.Final
      · exact ⟨0, Nat.zero_le _, hfinal⟩
      · have hlt := s.serve_read_served.progress hfinal
        rw [hsize] at hlt
        obtain ⟨count, hle, hcount⟩ := ih _ hlt (s.serve .read).2 rfl
        exact ⟨count + 1, Nat.le_trans (Nat.succ_le_succ hle) hlt, hcount⟩

theorem answers_replicate_read (s : TokenStream) (count : Nat) :
    (s.answers (List.replicate count .read)).map Prod.fst = (List.range count).map s.outcome := by
  induction count generalizing s with
  | zero => rfl
  | succ count ih =>
      rw [List.replicate_succ, TokenStream.answers, List.map_cons, ih, List.range_succ_eq_map,
        List.map_cons, List.map_map]
      rfl

end TokenStream

/-! ### Resuming -/

/-- Of two ways to split a text, those with as many bytes in front are the same. -/
theorem eq_of_byteLength_eq {front back cs tail : List Char} (h : cs ++ tail = front ++ back)
    (hl : byteLength front = byteLength cs) : cs = front := by
  obtain ⟨rest, rfl, -⟩ := exists_append_of_byteLength_le h (Nat.le_of_eq hl)
  rw [byteLength_append] at hl
  obtain rfl : rest = [] := by
    apply Classical.byContradiction
    intro hne
    have hpos := byteLength_pos hne
    omega
  exact List.append_nil _

theorem placed_of_outcome {source : String} {count : Nat} {fault : LexicalFault}
    (h : (ofString source).outcome count = .fault fault) :
    ∃ front behind, read ((ofString source).afterReads count) = .error fault behind ∧
      fault.Placed .wrapping source front behind := by
  obtain ⟨behind, hserve⟩ :
      ∃ behind, ((ofString source).afterReads count).serve .read = (.fault fault, behind) :=
    ⟨_, Prod.ext h rfl⟩
  have hread := serve_read_eq_fault_iff.mp hserve
  obtain ⟨front, hplaced⟩ := placed_of_fault hread
  exact ⟨front, behind, hread, hplaced⟩

/-- The faults behind a character that begins no token are those of the rest alone, counted on. -/
theorem LexicalFault.Moved.eq_countedOn {source : String} {before behind : List Char} {c : Char}
    {first second : Nat} {fault moved : LexicalFault}
    (hsource : source.toList = before ++ c :: behind) (hsize : source.utf8ByteSize < UInt32.size)
    (hfault : (ofString (String.ofList behind)).outcome first = .fault fault)
    (hmoved : (ofString source).outcome second = .fault moved)
    (h : fault.Moved (ofUnknown before c).span.stop moved) :
    moved = (ofUnknown before c).countedOn fault := by
  obtain ⟨front, rest, -, hplaced⟩ := placed_of_outcome hfault
  obtain ⟨all, left, -, haplaced⟩ := placed_of_outcome hmoved
  have hbehind := hplaced.place.source_eq
  rw [String.toList_ofList] at hbehind
  obtain rfl : all = (before ++ [c]) ++ front := by
    refine @eq_of_byteLength_eq _ rest.cursor.rest _ left.cursor.rest ?_ ?_
    · rw [← haplaced.place.source_eq, hsource, hbehind]
      simp
    · rw [← haplaced.stop_eq, h.span_eq, Span.shift, hplaced.stop_eq, byteLength_append,
        byteLength_append, Nat.add_comm]
      rfl
  have hroom : lineBehind front < UInt32.size := by
    have hle := lineBehind_le front
    have hpos := c.utf8Size_pos
    rw [← byteLength_toList, hsource, hbehind] at hsize
    simp only [byteLength_append, byteLength_cons] at hsize
    omega
  obtain ⟨cause, span, line, column⟩ := moved
  obtain rfl : line = _ := haplaced.line_right
  obtain rfl : column = _ := haplaced.column_right
  rw [ofNat_lineBehind_append, ofNat_columnBehind_append _ hroom, ← hplaced.line_right,
    ← hplaced.column_right]
  obtain ⟨rfl, rfl⟩ := h
  rfl

/-- Where a character that begins no token has been found, and what a stream is like behind it. -/
theorem unknown_of_outcome {source : String} {count : Nat} {fault : LexicalFault} {c : Char}
    (h : (ofString source).outcome count = .fault fault)
    (hc : fault.cause = .unknownCharacter c) :
    ∃ before, source.toList =
        before ++ c :: ((ofString source).afterReads (count + 1)).cursor.rest ∧
      fault = .ofUnknown before c ∧
      ((ofString source).afterReads (count + 1)).offset = fault.span.stop ∧
      ((ofString source).afterReads (count + 1)).pending = [] ∧
      ((ofString source).afterReads (count + 1)).opening = none := by
  obtain ⟨first, hfirst⟩ := behind_after source (List.replicate count .read)
  have hserved := serve_read_served ((ofString source).afterReads count)
  obtain ⟨behind, hserve⟩ :
      ∃ behind, ((ofString source).afterReads count).serve .read = (.fault fault, behind) :=
    ⟨_, Prod.ext h rfl⟩
  obtain ⟨front, hplaced⟩ := placed_of_fault (serve_read_eq_fault_iff.mp hserve)
  rw [afterReads_succ_eq_serve, hserve]
  rw [hserve] at hserved
  cases hserved with
  | @unknown character span cursor hp ho hscan =>
      obtain rfl := LexicalCause.unknownCharacter.inj hc
      have honward := scan_onward ((ofString source).afterReads count).cursor
      rw [hscan] at honward
      obtain ⟨gap, -, hcs, hstart, hend, hoffset⟩ := honward
      have hsource : source.toList = (first ++ gap) ++ character :: cursor.rest := by
        rw [hfirst.source_eq, List.append_assoc, ← hcs]
        rfl
      obtain rfl : front = (first ++ gap) ++ [character] := by
        have hboth := hplaced.place.source_eq.symm.trans hsource
        rw [List.append_cons] at hboth
        exact List.append_cancel_right hboth
      have hspan : span =
          ⟨byteLength (first ++ gap), byteLength (first ++ gap) + character.utf8Size⟩ := by
        have hbytes : span.start = byteLength (first ++ gap) := by
          rw [hstart, byteLength_append]
          exact congrArg (· + byteLength gap) hfirst.offset_eq
        rw [← hbytes, ← hend]
      refine ⟨first ++ gap, hsource, ?_, hoffset, hp, ho⟩
      rw [LexicalFault.ofUnknown, ← hplaced.line_right, ← hplaced.column_right, ← hspan]
      rfl
  | @unclosed opening cursor hp ho hscan => cases opening <;> exact nomatch hc
  | @again opening hp ho => cases opening <;> exact nomatch hc

/-- Behind a character that begins no token, reading goes on as in the rest of the source. -/
theorem outcome_of_unknown {source : String} {count : Nat} {fault : LexicalFault} {c : Char}
    (hsize : source.utf8ByteSize < UInt32.size)
    (h : (ofString source).outcome count = .fault fault)
    (hc : fault.cause = .unknownCharacter c) :
    ∃ before behind, source.toList = before ++ c :: behind ∧
      fault = .ofUnknown before c ∧
      ∀ later, (ofString source).outcome (count + 1 + later) =
        ((ofString (String.ofList behind)).outcome later).countedOn fault := by
  obtain ⟨before, hsource, hfault, hoffset, hp, ho⟩ := unknown_of_outcome h hc
  subst hfault
  refine ⟨before, _, hsource, rfl, fun later => ?_⟩
  have hadd := (ofString source).outcome_add (count + 1) later
  generalize (ofString source).afterReads (count + 1) = behind at *
  have hm : (ofString (String.ofList behind.cursor.rest)).cursor.Moved
      (LexicalFault.ofUnknown before c).span.stop [] behind.cursor := by
    refine ⟨by simp [TokenStream.ofString, Cursor.ofString], ?_⟩
    rw [← hoffset]
    exact (Nat.zero_add _).symm
  have hmoved := outcome_moved rfl rfl hp ho hm later
  rw [← hadd] at hmoved
  cases hanswer : (ofString (String.ofList behind.cursor.rest)).outcome later with
  | found token =>
      rw [hanswer] at hmoved
      exact hmoved
  | taken =>
      rw [hanswer] at hmoved
      exact hmoved
  | fault second =>
      rw [hanswer] at hmoved
      obtain ⟨moved, hshift, hlater⟩ := hmoved
      rw [hlater, hshift.eq_countedOn hsource hsize hanswer hlater]
      rfl

end MiniSmalltalk
