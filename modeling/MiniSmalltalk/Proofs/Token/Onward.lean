import MiniSmalltalk.Proofs.Token.Spelling

/-! # Scanning moves on

A scan uses up characters from the front, and what it finds lies among them. So whatever is read
before a fault ends where the fault begins, or earlier. A fault that scanning brings covers the
character that begins no token, or everything from the delimiter of a literal or comment without
end. -/

namespace MiniSmalltalk

/-! ### Literals and comments without end -/

namespace Opening

/-- The character that a literal or comment begins with. -/
def delimiter : Opening → Char
  | string _ => Text.Quoted.tick
  | comment _ => Token.quotationMark

/-- Characters in which a literal or comment does not end: all ticks of a literal are doubled, and
a comment has no further quotation mark. -/
def Endless : Opening → List Char → Prop
  | string _, body => ∃ text, body = Text.Quoted.encode text
  | comment _, body => Token.quotationMark ∉ body

end Opening

theorem Text.Quoted.eq_encode_of_split?_none {cs : List Char} (h : split? cs = none) :
    ∃ text, cs = encode text := by
  fun_induction split? cs with
  | case1 => exact ⟨[], rfl⟩
  | case2 => simp at h
  | case3 c hc => exact ⟨[c], (encode_cons_of_ne hc []).symm⟩
  | case4 cs ih =>
      obtain ⟨text, rfl⟩ := ih (Option.map_eq_none_iff.mp h)
      exact ⟨tick :: text, (encode_cons_tick text).symm⟩
  | case5 => simp at h
  | case6 c d cs hc ih =>
      obtain ⟨text, htext⟩ := ih (Option.map_eq_none_iff.mp h)
      exact ⟨c :: text, by rw [htext, encode_cons_of_ne hc]⟩

/-! ### One scan -/

/-- A scan of characters that begin at an offset finds nothing in front of it. Behind a token it
stands where the characters it has used up end, and so does the last token it has found. In front
of a fault there is nothing but a gap. -/
def Scan.Onward (offset : Nat) (cs : List Char) : Scan → Prop
  | .finished behind => behind.position.offset = offset + byteLength cs
  | .token first queued behind =>
      (∃ used, cs = used ++ behind.rest ∧ behind.position.offset = offset + byteLength used) ∧
        first.span.stop ≤ (queued.getD first).span.stop ∧
        (queued.getD first).span.stop = behind.position.offset
  | .unknown character span behind =>
      ∃ gap, Token.Gap gap ∧ cs = gap ++ character :: behind.rest ∧
        span.start = offset + byteLength gap ∧ span.stop = span.start + character.utf8Size ∧
        behind.position.offset = span.stop
  | .unclosed opening behind =>
      ∃ gap body, Token.Gap gap ∧ cs = gap ++ opening.delimiter :: body ∧ opening.Endless body ∧
        opening.start = offset + byteLength gap ∧ behind.position.offset = offset + byteLength cs

theorem Scan.Onward.behind {scan : Scan} {p : Position} {gap cs : List Char}
    (hg : Token.Gap gap) (h : scan.Onward (p.advanceAll gap).offset cs) :
    scan.Onward p.offset (gap ++ cs) := by
  rw [Position.advanceAll_offset] at h
  cases scan with
  | finished behind =>
      change behind.position.offset = _ at h
      change behind.position.offset = _
      rw [h, byteLength_append, Nat.add_assoc]
  | token first queued behind =>
      obtain ⟨⟨used, hcs, hoffset⟩, hstop⟩ := h
      refine ⟨⟨gap ++ used, by rw [hcs, List.append_assoc], ?_⟩, hstop⟩
      rw [hoffset, byteLength_append, Nat.add_assoc]
  | unknown character span behind =>
      obtain ⟨inner, hi, hcs, hstart, hstop⟩ := h
      refine ⟨gap ++ inner, hg.append hi, by rw [hcs, List.append_assoc], ?_, hstop⟩
      rw [hstart, byteLength_append, Nat.add_assoc]
  | unclosed opening behind =>
      obtain ⟨inner, body, hi, hcs, hbody, hstart, hoffset⟩ := h
      refine ⟨gap ++ inner, body, hg.append hi, by rw [hcs, List.append_assoc], hbody, ?_, ?_⟩
      · rw [hstart, byteLength_append, Nat.add_assoc]
      · rw [hoffset, byteLength_append, Nat.add_assoc]

theorem Scan.Onward.ite {test : Prop} [Decidable test] {yes no : Scan} {offset : Nat}
    {cs : List Char} (hy : yes.Onward offset cs) (hn : no.Onward offset cs) :
    (if test then yes else no).Onward offset cs := by
  by_cases h : test
  · rwa [if_pos h]
  · rwa [if_neg h]

theorem Scan.onward_token {p : Position} {token : Node} {lexeme rest cs : List Char}
    {behind : Cursor} (hs : cs = lexeme ++ rest) (hr : behind.rest = rest)
    (ho : behind.position.offset = (p.advanceAll lexeme).offset)
    (ht : token.span.stop = (p.advanceAll lexeme).offset) :
    (Scan.token token none behind).Onward p.offset cs := by
  refine ⟨⟨lexeme, hr ▸ hs, ?_⟩, Nat.le_refl _, ht.trans ho.symm⟩
  rw [ho, Position.advanceAll_offset]

namespace Token

theorem single_onward (kind : Kind) (p : Position) (c : Char) (cs : List Char) :
    (single kind p c cs).Onward p.offset (c :: cs) :=
  @Scan.onward_token p _ [c] cs _ _ rfl rfl rfl rfl

theorem word_onward (p : Position) (c : Char) (cs : List Char) :
    (word p c cs).Onward p.offset (c :: cs) := by
  have hsplit : c :: cs = (c :: cs.takeWhile Char.isAlphanum) ++ cs.dropWhile Char.isAlphanum := by
    simp
  unfold word
  dsimp only
  split
  · -- The queued sign ends at the cursor, and the name in front of the sign.
    rename_i rest heq
    rw [heq] at hsplit
    refine ⟨⟨c :: (cs.takeWhile Char.isAlphanum ++ [':', '=']), by simp [hsplit], ?_⟩, ?_, ?_⟩
    · rw [Position.advanceAll_offset, Position.advanceAll_offset]
      simp [Nat.add_assoc]
    · simp only [Option.getD_some, Node.bare, Node.leaf, Position.advanceAll_offset _ [':', '=']]
      exact Nat.le_add_right _ _
    · rfl
  · rename_i rest _ heq
    rw [heq] at hsplit
    have hstop : ((p.advanceAll (c :: cs.takeWhile Char.isAlphanum)).advance ':').offset =
        (p.advanceAll (c :: cs.takeWhile Char.isAlphanum ++ [':'])).offset := by
      rw [Position.advanceAll_append]
      rfl
    refine Scan.onward_token ?_ (Cursor.settle_rest _) ((Cursor.settle_offset _).trans hstop) hstop
    simp [hsplit]
  · exact Scan.onward_token hsplit (Cursor.settle_rest _) (Cursor.settle_offset _) rfl

theorem digits_onward (p : Position) (c : Char) (cs : List Char) :
    (digits p c cs).Onward p.offset (c :: cs) := by
  have hsplit : c :: cs = (c :: cs.takeWhile Char.isDigit) ++ cs.dropWhile Char.isDigit := by
    simp
  exact Scan.onward_token hsplit (Cursor.settle_rest _) (Cursor.settle_offset _) rfl

theorem quoted_onward (p : Position) (cs : List Char) :
    (quoted p Text.Quoted.tick cs).Onward p.offset (Text.Quoted.tick :: cs) := by
  unfold quoted
  split
  · rename_i text rest hsplit
    refine Scan.onward_token ?_ (Cursor.settle_rest _) (Cursor.settle_offset _) rfl
    rw [Text.Quoted.eq_encode_of_split? cs hsplit]
    simp
  · rename_i hsplit
    refine ⟨[], cs, .nil, rfl, Text.Quoted.eq_encode_of_split?_none hsplit, rfl, ?_⟩
    exact Position.advanceAll_offset p _

theorem colon_onward (p : Position) (cs : List Char) :
    (colon p cs).Onward p.offset (':' :: cs) := by
  unfold colon
  split
  · rename_i rest
    exact @Scan.onward_token p _ [':', '='] rest _ _ rfl rfl rfl rfl
  · exact @Scan.onward_token p _ [':'] cs _ _ rfl (Cursor.settle_rest _)
      (Cursor.settle_offset _) rfl

theorem read_onward (p : Position) (c : Char) (cs : List Char) :
    (read p c cs).Onward p.offset (c :: cs) := by
  unfold read
  by_cases hcaret : c = '^'
  · subst hcaret
    exact @Scan.onward_token p _ ['^'] cs _ _ rfl rfl rfl rfl
  rw [if_neg hcaret]
  iterate 6 refine .ite (single_onward _ p c cs) ?_
  by_cases htick : c = Text.Quoted.tick
  · subst htick
    exact quoted_onward p cs
  rw [if_neg htick]
  by_cases hcolon : c = ':'
  · subst hcolon
    exact colon_onward p cs
  rw [if_neg hcolon]
  refine .ite (single_onward _ p c cs) (.ite (word_onward p c cs) (.ite (digits_onward p c cs) ?_))
  exact ⟨[], .nil, rfl, rfl, rfl, rfl⟩

theorem scan_onward (cursor : Cursor) :
    (scan cursor).Onward cursor.position.offset cursor.rest := by
  obtain ⟨cs, p⟩ := cursor
  simp only [scan]
  cases layout cs with
  | gap hg =>
      have hscan := scanFrom_gap hg p []
      rw [List.append_nil] at hscan
      rw [hscan]
      exact Position.advanceAll_offset p _
  | token hg hc =>
      rw [scanFrom_gap hg, scanFrom_of_starts hc]
      exact (read_onward _ _ _).behind hg
  | @unclosed gap body hg hb =>
      rw [scanFrom_gap hg, scanFrom_quotationMark, scanFrom_unclosed hb]
      refine Scan.Onward.behind hg ⟨[], body, .nil, rfl, hb, rfl, ?_⟩
      exact Position.advanceAll_offset _ (quotationMark :: body)

end Token

/-! ### All readings in front of a fault -/

/-- Tokens in front of a view are among the tokens in front of its first fault. -/
theorem eq_append_of_fault {front tokens : List Node} {view later : List Reading}
    {fault : LexicalFault} (h : front.map .ok ++ view = tokens.map .ok ++ .error fault :: later) :
    ∃ others, tokens = front ++ others ∧ view = others.map .ok ++ .error fault :: later := by
  induction front generalizing tokens with
  | nil => exact ⟨tokens, rfl, h⟩
  | cons first front ih =>
      cases tokens with
      | nil => simp at h
      | cons token tokens =>
          simp only [List.map_cons, List.cons_append, List.cons.injEq, Except.ok.injEq] at h
          obtain ⟨rfl, h⟩ := h
          obtain ⟨others, rfl, hview⟩ := ih h
          exact ⟨others, rfl, hview⟩

theorem eq_of_fault_first {tokens : List Node} {rest later : List Reading}
    {first fault : LexicalFault}
    (h : .error first :: rest = tokens.map .ok ++ .error fault :: later) :
    tokens = [] ∧ fault = first := by
  cases tokens with
  | nil =>
      simp only [List.map_nil, List.nil_append, List.cons.injEq, Except.error.injEq] at h
      exact ⟨rfl, h.1.symm⟩
  | cons token tokens => simp at h

/-- A fault begins behind the cursor and behind every token that is read before it. -/
theorem Cursor.readings_onward {cursor : Cursor} {tokens : List Node} {fault : LexicalFault}
    {later : List Reading} (h : cursor.readings = tokens.map .ok ++ .error fault :: later) :
    cursor.position.offset ≤ fault.span.start ∧
      ∀ token ∈ tokens, token.isLeaf = true ∧ token.span.stop ≤ fault.span.start := by
  have honward := Token.scan_onward cursor
  have hspec := Token.scan_spec cursor
  fun_induction readings cursor generalizing tokens with
  | case1 cursor behind hscan => simp at h
  | case2 cursor first queued behind hscan ih =>
      rw [hscan] at hspec honward
      obtain ⟨others, rfl, hbehind⟩ := @eq_append_of_fault (first :: queued.toList) _ _ _ _ h
      obtain ⟨hfirst, hqueued, -⟩ := hspec
      obtain ⟨⟨used, -, hoffset⟩, hstop, hlast⟩ := honward
      obtain ⟨hcursor, hothers⟩ := ih hbehind (Token.scan_onward behind) (Token.scan_spec behind)
      refine ⟨by omega, ?_⟩
      intro token hm
      simp only [List.mem_append, List.mem_cons, Option.mem_toList] at hm
      rcases hm with (rfl | hm) | hm
      · exact ⟨hfirst, by omega⟩
      · obtain rfl : queued = some token := hm
        exact ⟨hqueued token rfl, Nat.le_trans (Nat.le_of_eq hlast) hcursor⟩
      · exact hothers token hm
  | case3 cursor character span behind hscan ih =>
      rw [hscan] at honward
      obtain ⟨rfl, rfl⟩ := eq_of_fault_first h
      obtain ⟨gap, -, -, hstart, -⟩ := honward
      exact ⟨Nat.le_trans (Nat.le_add_right _ _) (Nat.le_of_eq hstart.symm), by simp⟩
  | case4 cursor opening behind hscan =>
      rw [hscan] at honward
      obtain ⟨rfl, rfl⟩ := eq_of_fault_first h
      obtain ⟨gap, body, -, -, -, hstart, -⟩ := honward
      exact ⟨Nat.le_trans (Nat.le_add_right _ _) (Nat.le_of_eq hstart.symm), by simp⟩

/-! ### The end of a source -/

/-- The offset at which the source of a cursor ends. -/
def Cursor.stop (cursor : Cursor) : Nat := cursor.position.offset + byteLength cursor.rest

namespace TokenStream

def stop (s : TokenStream) : Nat := s.cursor.stop

theorem stop_ofString (source : String) : (ofString source).stop = source.utf8ByteSize := by
  rw [← byteLength_toList]
  exact Nat.zero_add _

theorem scan_stop {s behind : TokenStream} {found : Option Node} (h : scan s = .ok found behind) :
    behind.stop = s.stop ∧ (found = none → behind.offset = s.stop) := by
  have honward := Token.scan_onward s.cursor
  have hspec := Token.scan_spec s.cursor
  unfold scan at h
  split at h
  · rename_i cursor hscan
    rw [hscan] at honward hspec
    cases h
    have hstop : cursor.position.offset = s.stop := honward
    have hrest : cursor.rest = [] := hspec
    refine ⟨?_, fun _ => hstop⟩
    rw [← hstop]
    simp [stop, Cursor.stop, hrest]
  · rename_i token queued cursor hscan
    rw [hscan] at honward
    cases h
    obtain ⟨⟨used, hused, hoffset⟩, -⟩ := honward
    refine ⟨?_, nofun⟩
    simp only [stop, Cursor.stop, hused, hoffset, byteLength_append, Nat.add_assoc]
  · cases h
  · cases h

/-- Reading does not move the end of a source, and stands there when it finds nothing. -/
theorem read_stop {s behind : TokenStream} {found : Option Node} (h : read s = .ok found behind) :
    behind.stop = s.stop ∧ (found = none → behind.offset = s.stop) := by
  unfold read at h
  split at h
  · cases h
    exact ⟨rfl, nofun⟩
  · split at h
    · cases h
    · exact scan_stop h

end TokenStream

end MiniSmalltalk
