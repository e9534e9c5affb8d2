import MiniSmalltalk.Proofs.Token.Onward
import MiniSmalltalk.Proofs.Token.Separation
import MiniSmalltalk.Proofs.Token.Tiling
import MiniSmalltalk.Source.Lines

/-! # Truncated sources

A source that is cut off where one of its tokens begins has the tokens in front of the cut, each
where it was. No token is read differently for want of what has followed it, not even a name that
is cut off from the sign `:=` with which it is read. -/

namespace MiniSmalltalk

/-- The part of a source that lies in its first bytes. -/
def truncate (source : String) (bytes : Nat) : String :=
  String.ofList (source.toList.take (SourceLine.charactersUpTo bytes 0 source.toList))

theorem charactersUpTo_append (offset : Nat) (front back : List Char) :
    SourceLine.charactersUpTo (offset + byteLength front) offset (front ++ back) =
      front.length := by
  induction front generalizing offset with
  | nil =>
      cases back with
      | nil => rfl
      | cons c back =>
          have hc := c.utf8Size_pos
          simp [SourceLine.charactersUpTo]
          omega
  | cons c front ih =>
      have hfront := ih (offset + c.utf8Size)
      rw [Nat.add_assoc] at hfront
      rw [List.cons_append, byteLength_cons, SourceLine.charactersUpTo, hfront, if_pos (by omega),
        List.length_cons]

theorem truncate_append {source : String} {front back : List Char}
    (h : source.toList = front ++ back) :
    truncate source (byteLength front) = String.ofList front := by
  have hcount := charactersUpTo_append 0 front back
  rw [Nat.zero_add] at hcount
  simp [truncate, h, hcount]

/-- Of two ways to split a text, the shorter front is where the longer one begins. -/
theorem exists_append_of_byteLength_le {front back cs tail : List Char}
    (h : cs ++ tail = front ++ back) (hl : byteLength front ≤ byteLength cs) :
    ∃ rest, cs = front ++ rest ∧ back = rest ++ tail := by
  rcases List.append_eq_append_iff.mp h with ⟨more, rfl, rfl⟩ | ⟨rest, rfl, rfl⟩
  · -- Nothing is left for the longer front to reach beyond the shorter one.
    obtain rfl : more = [] := by
      apply Classical.byContradiction
      intro hne
      have hpos := Token.byteLength_pos hne
      rw [byteLength_append] at hl
      omega
    exact ⟨[], by simp, rfl⟩
  · exact ⟨rest, rfl, rfl⟩

namespace Token

/-! ### One scan -/

/-- What a scan comes to if its text is cut off in front of `tail`: a token in front of the cut is
found all the same. -/
def Cut (tail : List Char) : Scan → Scan → Prop
  | .token first queued behind, cut => ∀ rest, behind.rest = rest ++ tail →
      ∃ behind', behind'.rest = rest ∧ behind'.position.offset = behind.position.offset ∧
        cut = .token first queued behind'
  | _, _ => True

theorem Cut.ite {test : Prop} [Decidable test] {tail : List Char} {yes no yes' no' : Scan}
    (hy : test → Cut tail yes yes') (hn : ¬ test → Cut tail no no') :
    Cut tail (if test then yes else no) (if test then yes' else no') := by
  by_cases h : test
  · rw [if_pos h, if_pos h]
    exact hy h
  · rw [if_neg h, if_neg h]
    exact hn h

/-- A run that has ended in front of a tail ends there without the tail too. -/
theorem span_cut {test : Char → Bool} {cs tail rest : List Char}
    (h : (cs ++ tail).dropWhile test = rest ++ tail) :
    (cs ++ tail).takeWhile test = cs.takeWhile test ∧ cs.dropWhile test = rest := by
  induction cs with
  | nil =>
      have hall := @List.takeWhile_append_dropWhile _ test tail
      rw [List.nil_append] at h ⊢
      rw [h, ← List.append_assoc] at hall
      obtain ⟨htake, rfl⟩ := List.append_eq_nil_iff.mp (List.append_left_eq_self.mp hall)
      exact ⟨htake, rfl⟩
  | cons c cs ih =>
      by_cases hc : test c = true
      · simp only [List.cons_append, List.dropWhile_cons_of_pos hc] at h
        obtain ⟨htake, hdrop⟩ := ih h
        simp [hc, htake, hdrop]
      · simp only [List.cons_append, List.dropWhile_cons_of_neg hc] at h
        obtain rfl : c :: cs = rest := List.append_cancel_right h
        simp [hc]

theorem ne_cons_of_append {rest tail : List Char} {c : Char}
    (h : ∀ more, rest ++ tail ≠ c :: more) : ∀ more, rest ≠ c :: more := by
  rintro more rfl
  exact h (more ++ tail) rfl

section

variable {tail : List Char} {p q : Position} (hq : q.offset = p.offset)

include hq

theorem advanceAll_offset_eq (cs : List Char) :
    (q.advanceAll cs).offset = (p.advanceAll cs).offset := by
  rw [Position.advanceAll_offset, Position.advanceAll_offset, hq]

theorem token_cut (kind : Kind) (text : Option String) (lexeme : List Char) {behind : Cursor}
    {cut : Scan} (ho : behind.position.offset = (p.advanceAll lexeme).offset)
    (h : ∀ rest, behind.rest = rest ++ tail → ∃ behind', behind'.rest = rest ∧
      behind'.position.offset = (q.advanceAll lexeme).offset ∧
      cut = .token ⟨kind, text, [], ⟨q.offset, (q.advanceAll lexeme).offset⟩⟩ none behind') :
    Cut tail (.token ⟨kind, text, [], ⟨p.offset, (p.advanceAll lexeme).offset⟩⟩ none behind)
      cut := by
  intro rest hrest
  obtain ⟨behind', hr, ho', rfl⟩ := h rest hrest
  have hoffset := advanceAll_offset_eq hq lexeme
  refine ⟨behind', hr, ?_, ?_⟩
  · rw [ho, ho', hoffset]
  · rw [hoffset, hq]

theorem settled_cut (kind : Kind) (text : Option String) (lexeme : List Char) {left : List Char}
    {cut : Scan}
    (h : ∀ rest, left = rest ++ tail →
      cut = .token ⟨kind, text, [], ⟨q.offset, (q.advanceAll lexeme).offset⟩⟩ none
        (.settle ⟨rest, q.advanceAll lexeme⟩)) :
    Cut tail (.token ⟨kind, text, [], ⟨p.offset, (p.advanceAll lexeme).offset⟩⟩ none
      (.settle ⟨left, p.advanceAll lexeme⟩)) cut := by
  refine token_cut hq kind text lexeme (Cursor.settle_offset _) ?_
  intro rest hrest
  rw [Cursor.settle_rest] at hrest
  exact ⟨_, Cursor.settle_rest _, Cursor.settle_offset _, h rest hrest⟩

theorem single_cut (kind : Kind) (c : Char) (cs : List Char) :
    Cut tail (single kind p c (cs ++ tail)) (single kind q c cs) := by
  refine token_cut hq kind (some (String.singleton c)) [c] rfl ?_
  intro rest hrest
  obtain rfl : cs = rest := List.append_cancel_right hrest
  exact ⟨_, rfl, rfl, rfl⟩

theorem digits_cut (c : Char) (cs : List Char) :
    Cut tail (digits p c (cs ++ tail)) (digits q c cs) := by
  refine settled_cut hq .integer _ (c :: (cs ++ tail).takeWhile Char.isDigit) ?_
  intro rest hrest
  obtain ⟨htake, hdrop⟩ := span_cut hrest
  rw [digits, htake, hdrop]
  rfl

theorem colon_cut (cs : List Char) : Cut tail (colon p (cs ++ tail)) (colon q cs) := by
  by_cases h : ∃ more, cs ++ tail = '=' :: more
  · obtain ⟨more, hmore⟩ := h
    rw [hmore]
    refine token_cut hq .assignment none [':', '='] rfl ?_
    rintro rest rfl
    obtain rfl : cs = '=' :: rest := List.append_cancel_right hmore
    exact ⟨_, rfl, rfl, rfl⟩
  · have hnone : ∀ more, cs ++ tail ≠ '=' :: more := fun more hm => h ⟨more, hm⟩
    rw [colon_of_not_equals hnone]
    refine settled_cut hq .colon (some ":") [':'] ?_
    intro rest hrest
    obtain rfl : cs = rest := List.append_cancel_right hrest
    exact colon_of_not_equals (ne_cons_of_append hnone) q

theorem word_cut (c : Char) (cs : List Char) :
    Cut tail (word p c (cs ++ tail)) (word q c cs) := by
  by_cases hcolon : ∃ left, (cs ++ tail).dropWhile Char.isAlphanum = ':' :: left
  · obtain ⟨left, hleft⟩ := hcolon
    by_cases hassign : ∃ more, left = '=' :: more
    · obtain ⟨more, rfl⟩ := hassign
      rw [word_of_assignment hleft]
      rintro rest rfl
      obtain ⟨htake, hdrop⟩ := @span_cut _ cs tail (':' :: '=' :: rest) hleft
      have hname := advanceAll_offset_eq hq (c :: cs.takeWhile Char.isAlphanum)
      rw [word_of_assignment hdrop, htake]
      have hsign := advanceAll_offset_eq hname [':', '=']
      refine ⟨⟨rest, _⟩, rfl, hsign, ?_⟩
      rw [hsign, hname, hq]
      rfl
    · have hnone : ∀ more, left ≠ '=' :: more := fun more hm => hassign ⟨more, hm⟩
      rw [word_of_colon hleft hnone]
      refine settled_cut hq .keyword _ _ ?_
      rintro rest rfl
      obtain ⟨htake, hdrop⟩ := @span_cut _ cs tail (':' :: rest) hleft
      rw [word_of_colon hdrop (ne_cons_of_append hnone), htake]
      rfl
  · have hnone : ∀ left, (cs ++ tail).dropWhile Char.isAlphanum ≠ ':' :: left :=
      fun left hl => hcolon ⟨left, hl⟩
    rw [word_of_not_colon hnone]
    refine settled_cut hq .identifier _ _ ?_
    intro rest hrest
    obtain ⟨htake, hdrop⟩ := span_cut hrest
    rw [hrest] at hnone
    rw [word_of_not_colon (hdrop ▸ ne_cons_of_append hnone), htake, hdrop]
    rfl

theorem quoted_cut (c : Char) (cs : List Char) :
    Cut tail (quoted p c (cs ++ tail)) (quoted q c cs) := by
  cases hs : Text.Quoted.split? (cs ++ tail) with
  | none =>
      rw [quoted, hs]
      trivial
  | some found =>
      obtain ⟨text, left⟩ := found
      rw [quoted, hs]
      refine settled_cut hq .string _ _ ?_
      rintro rest rfl
      have hhead : rest.head? ≠ some Text.Quoted.tick := by
        have hleft := head?_of_split? hs
        cases rest with
        | nil => simp
        | cons d rest => exact hleft
      obtain rfl : cs = Text.Quoted.encode text ++ Text.Quoted.tick :: rest := by
        have hcs := Text.Quoted.eq_encode_of_split? _ hs
        rw [← List.cons_append, ← List.append_assoc] at hcs
        exact List.append_cancel_right hcs
      rw [quoted, Text.Quoted.split?_encode text hhead]
      rfl

theorem read_cut (c : Char) (cs : List Char) :
    Cut tail (read p c (cs ++ tail)) (read q c cs) := by
  unfold read
  refine .ite ?_ fun _ => ?_
  · intro _
    refine token_cut hq .answer none ['^'] rfl ?_
    intro rest hrest
    obtain rfl : cs = rest := List.append_cancel_right hrest
    exact ⟨_, rfl, rfl, rfl⟩
  iterate 6 refine .ite (fun _ => single_cut hq _ c cs) fun _ => ?_
  refine .ite (fun _ => quoted_cut hq c cs) fun _ => .ite (fun _ => colon_cut hq cs) fun _ =>
    .ite (fun _ => single_cut hq _ c cs) fun _ => .ite (fun _ => word_cut hq c cs) fun _ =>
    .ite (fun _ => digits_cut hq c cs) fun _ => ?_
  trivial

/-- A scan whose token lies in front of a cut does not notice the cut. -/
theorem scan_cut (cs : List Char) : Cut tail (scan ⟨cs ++ tail, p⟩) (scan ⟨cs, q⟩) := by
  simp only [scan]
  generalize hall : cs ++ tail = all
  cases layout all with
  | gap hg =>
      have hscan := scanFrom_gap hg p []
      rw [List.append_nil] at hscan
      rw [hscan]
      trivial
  | unclosed hg hb =>
      rw [scanFrom_gap hg, scanFrom_quotationMark, scanFrom_unclosed hb]
      trivial
  | @token gap more c hg hc =>
      rw [scanFrom_gap hg, scanFrom_of_starts hc]
      have hspec := read_spec (p.advanceAll gap) c more
      cases hread : read (p.advanceAll gap) c more with
      | finished behind => trivial
      | unknown character span behind => trivial
      | unclosed opening behind => trivial
      | token first queued behind =>
          intro rest hrest
          rw [hread] at hspec
          have hlength := congrArg List.length hall
          have hbehind := congrArg List.length hrest
          simp only [List.length_append, List.length_cons] at hlength hbehind
          have hlt := hspec.2.2
          -- The token takes a character, so the gap and that character lie in front of the cut.
          rcases List.append_eq_append_iff.mp hall with ⟨beyond, rfl, rfl⟩ | ⟨inner, rfl, hinner⟩
          · simp only [List.length_append] at hlength hbehind
            omega
          · cases inner with
            | nil =>
                simp only [List.append_nil] at hlength
                omega
            | cons d inner =>
                rw [List.cons_append] at hinner
                obtain ⟨rfl, rfl⟩ := List.cons.inj hinner
                have hcut := @read_cut tail _ _ (advanceAll_offset_eq hq gap) c inner
                rw [hread] at hcut
                rw [scanFrom_gap hg, scanFrom_of_starts hc]
                exact hcut rest hrest

end

end Token

open Token

/-! ### All readings -/

theorem Token.Gap.readings {gap : List Char} (hg : Gap gap) (p : Position) :
    Cursor.readings ⟨gap, p⟩ = [] := by
  have hgap := Cursor.readings_gap hg p []
  rw [List.append_nil] at hgap
  rw [hgap, Cursor.readings_of_rest_nil rfl]

/-- Cut off in front of its first token, a text is a gap. -/
theorem Token.Tiled.gap_of_cut {offset : Nat} {cs tail : List Char} {first : Node}
    {others : List Node} (h : Tiled offset (cs ++ tail) (first :: others))
    (hc : first.span.start = offset + byteLength cs) : Gap cs := by
  generalize hall : cs ++ tail = all at h
  cases h with
  | @token _ gap lexeme rest _ _ hg hw _ =>
      rw [hw.span_eq] at hc
      simp only at hc
      obtain ⟨left, hgap, -⟩ := exists_append_of_byteLength_le hall.symm (by omega)
      obtain ⟨left', hcs, -⟩ := exists_append_of_byteLength_le hall (by omega)
      obtain rfl : left' = [] := by
        have hlength := congrArg List.length (hgap.trans (congrArg (· ++ left) hcs))
        simp only [List.length_append] at hlength
        exact List.length_eq_zero_iff.mp (by omega)
      rwa [hcs, List.append_nil]

theorem Token.Written.eq {offset : Nat} {lexeme : List Char} {token : Node}
    (h : Written offset lexeme token) :
    (⟨token.kind, token.text, [], ⟨offset, offset + byteLength lexeme⟩⟩ : Node) = token := by
  obtain ⟨hleaf, -, hspan⟩ := h
  obtain ⟨kind, text, children, span⟩ := token
  obtain rfl : children = [] := List.isEmpty_iff.mp hleaf
  rw [← hspan]

/-- Cut off in front of its second token, a text has the first one only, even if both have been
read at once. -/
theorem Token.Tiled.readings_of_cut {cs tail : List Char} {p q : Position}
    (hq : q.offset = p.offset) {token first : Node} {others : List Node}
    (h : Tiled p.offset (cs ++ tail) (token :: first :: others))
    (hc : first.span.start = p.offset + byteLength cs) :
    Cursor.readings ⟨cs, q⟩ = [.ok token] := by
  generalize hall : cs ++ tail = all at h
  cases h with
  | @token _ gap lexeme rest _ _ hg hw ht =>
      have hle := ht.start_le first List.mem_cons_self
      rw [← List.append_assoc] at hall
      obtain ⟨left, rfl, rfl⟩ := exists_append_of_byteLength_le hall
        (by rw [byteLength_append]; omega)
      have hleft : Gap left := ht.gap_of_cut (by
        rw [hc, byteLength_append, byteLength_append]; omega)
      have hbreaks : Breaks left := by
        by_cases hne : left = []
        · rw [hne]
          exact breaks_nil
        · simpa using hleft.breaks hne []
      obtain ⟨behind, hrest, -, hscan⟩ := scan_finds hw.spelling hbreaks (q.advanceAll gap)
      have hscanned := @Cursor.readings_of_token ⟨lexeme ++ left, q.advanceAll gap⟩ _ _ _ hscan
      rw [Position.advanceAll_offset, hq, hw.eq] at hscanned
      have hnil : behind.readings = [] := by
        obtain ⟨_, position⟩ := behind
        obtain rfl := hrest
        exact hleft.readings position
      rw [List.append_assoc, Cursor.readings_gap hg, hscanned, hnil]
      rfl

/-- A text that is cut off where one of its tokens begins has the tokens in front of the cut. -/
theorem Cursor.readings_cut {cs tail : List Char} {p q : Position} (hq : q.offset = p.offset)
    {front : List Node} {first : Node} {others : List Node}
    (h : Cursor.readings ⟨cs ++ tail, p⟩ = (front ++ first :: others).map .ok)
    (hc : first.span.start = p.offset + byteLength cs) :
    Cursor.readings ⟨cs, q⟩ = front.map .ok := by
  have htiled := Cursor.tiled h
  have honward := scan_onward ⟨cs ++ tail, p⟩
  have hcut := @scan_cut tail p q hq cs
  generalize hcursor : (⟨cs ++ tail, p⟩ : Cursor) = cursor at h honward hcut
  fun_induction readings cursor generalizing cs p q front with
  | case1 cursor behind hscan => simp at h
  | case3 cursor character span behind hscan ih => cases front <;> simp at h
  | case4 cursor opening behind hscan => cases front <;> simp at h
  | case2 cursor token queued behind hscan ih =>
      subst hcursor
      rw [hscan] at honward hcut
      -- Behind a cursor in front of the cut everything is read as before.
      have hbehind : ∀ later : List Node,
          behind.readings = (later ++ first :: others).map .ok →
          readings ⟨cs, q⟩ = .ok token :: (queued.toList.map .ok ++ later.map .ok) := by
        intro later hlater
        obtain ⟨⟨used, hused, hoffset⟩, -⟩ := honward
        have hfirst : first ∈ later ++ first :: others := by simp
        have hle := (Cursor.tiled hlater).start_le first hfirst
        obtain ⟨rest, rfl, hrest⟩ := exists_append_of_byteLength_le hused (by
          simp only at hoffset; omega)
        obtain ⟨⟨kept, position⟩, rfl, hposition, hscan'⟩ := hcut rest hrest
        rw [readings_of_token hscan']
        obtain ⟨left, place⟩ := behind
        obtain rfl : left = kept ++ tail := hrest
        have hstart : first.span.start = place.offset + byteLength kept := by
          simp only [byteLength_append] at hc hoffset
          omega
        rw [ih hposition hstart (Cursor.tiled hlater) rfl hlater (scan_onward _)
          (scan_cut hposition _)]
      cases front with
      | nil => exact (htiled.gap_of_cut hc).readings q
      | cons head front =>
          cases front with
          | nil => exact htiled.readings_of_cut hq hc
          | cons second front =>
              simp only [List.cons_append, List.map_cons, List.cons.injEq, Except.ok.injEq] at h
              obtain ⟨rfl, h⟩ := h
              cases queued with
              | none => exact hbehind (second :: front) h
              | some sign =>
                  simp only [Option.toList_some, List.map_cons, List.map_nil, List.cons_append,
                    List.nil_append, List.cons.injEq, Except.ok.injEq] at h
                  obtain ⟨rfl, h⟩ := h
                  exact hbehind front h

/-! ### Sources -/

/-- A source that is cut off where one of its tokens begins has the tokens in front of it. -/
theorem tokenize_truncate {source : String} {front : List Node} {first : Node}
    {others : List Node} (h : tokenize source = .ok (front ++ first :: others)) :
    tokenize (truncate source first.span.start) = .ok front ∧
      (truncate source first.span.start).utf8ByteSize = first.span.start := by
  obtain ⟨-, lexeme, ⟨before, behind, hsource, hspan⟩, -⟩ :=
    @Tiled.tokens_spelled source [] _ _ (tiled_of_tokenize h) rfl first (by simp)
  have hstart : first.span.start = byteLength before := by rw [hspan]
  rw [hstart, truncate_append hsource]
  refine ⟨tokenize_eq_ok_iff.mpr ?_, utf8ByteSize_ofList before⟩
  have hahead := tokenize_eq_ok_iff.mp h
  rw [ahead_ofString, hsource] at hahead
  rw [ahead_ofString, String.toList_ofList]
  exact Cursor.readings_cut rfl hahead (by simp [hstart, Position.start])

end MiniSmalltalk
