import MiniSmalltalk.Proofs.Token.Truncation

/-! # Where lexical faults lie

A lexical fault covers whole characters of its source: the one that begins no token, or all of them
from the delimiter of a literal or comment without end. The tokens that are read before it tile the
source up to where it begins. -/

namespace MiniSmalltalk

open Token

/-! ### Whole characters -/

/-- An offset at which a character of a source begins or the source ends. -/
def Boundary (source : String) (offset : Nat) : Prop :=
  ∃ before behind, source.toList = before ++ behind ∧ offset = byteLength before

/-- A span of whole characters of a source. -/
structure Span.Covers (source : String) (span : Span) : Prop where
  ordered : span.start ≤ span.stop
  inside : span.stop ≤ source.utf8ByteSize
  start : Boundary source span.start
  stop : Boundary source span.stop

theorem boundary_end (source : String) : Boundary source source.utf8ByteSize :=
  ⟨source.toList, [], (List.append_nil _).symm, (byteLength_toList source).symm⟩

theorem Span.covers_end (source : String) : (Span.point source.utf8ByteSize).Covers source :=
  ⟨Nat.le_refl _, Nat.le_refl _, boundary_end source, boundary_end source⟩

theorem Slice.covers {source : String} {span : Span} {cs : List Char} (h : Slice source span cs) :
    span.Covers source := by
  have hinside := h.stop_le
  obtain ⟨before, behind, hsource, rfl⟩ := h
  refine ⟨Nat.le_add_right _ _, hinside, ⟨before, _, hsource, rfl⟩, ?_⟩
  exact ⟨before ++ cs, behind, by rw [hsource, List.append_assoc], (byteLength_append _ _).symm⟩

theorem Slice.of_front {source front : String} {span : Span} {cs behind : List Char}
    (h : Slice front span cs) (hsource : source.toList = front.toList ++ behind) :
    Slice source span cs := by
  obtain ⟨before, after, hfront, hspan⟩ := h
  exact ⟨before, after ++ behind, by simp [hsource, hfront], hspan⟩

/-! ### Lexical faults -/

def LexicalFault.Covers (source : String) (fault : LexicalFault) : Prop :=
  match fault.cause with
  | .unknownCharacter character => Slice source fault.span [character]
  | .unterminatedString =>
      (∃ text, Slice source fault.span (Text.Quoted.tick :: Text.Quoted.encode text)) ∧
        fault.span.stop = source.utf8ByteSize
  | .unterminatedComment =>
      (∃ body, quotationMark ∉ body ∧ Slice source fault.span (quotationMark :: body)) ∧
        fault.span.stop = source.utf8ByteSize
  | .unexpectedEnd | .compositePushback _ => False

theorem LexicalFault.Covers.slice {source : String} {fault : LexicalFault}
    (h : fault.Covers source) : ∃ cs, Slice source fault.span cs := by
  unfold LexicalFault.Covers at h
  split at h
  · exact ⟨_, h⟩
  · obtain ⟨⟨text, hs⟩, -⟩ := h
    exact ⟨_, hs⟩
  · obtain ⟨⟨body, -, hs⟩, -⟩ := h
    exact ⟨_, hs⟩
  · exact h.elim
  · exact h.elim

theorem Cursor.unclosed_covers {source : String} {before body : List Char} {cursor : Cursor}
    {opening : Opening} (hsource : source.toList = before ++ opening.delimiter :: body)
    (hbody : opening.Endless body) (hstart : opening.start = byteLength before)
    (hstop : cursor.position.offset = source.utf8ByteSize) :
    (cursor.unclosed opening).Covers source := by
  have hslice : Slice source (cursor.unclosed opening).span (opening.delimiter :: body) := by
    refine ⟨before, [], by simpa using hsource, ?_⟩
    rw [← byteLength_append, ← hsource, byteLength_toList, ← hstart, ← hstop]
    rfl
  cases opening with
  | string start =>
      obtain ⟨text, rfl⟩ := hbody
      exact ⟨⟨text, hslice⟩, hstop⟩
  | comment start => exact ⟨⟨body, hbody, hslice⟩, hstop⟩

/-! ### Tokens in front of a fault -/

theorem Token.Tiled.append {offset : Nat} {cs ds : List Char} {front back : List Node}
    (h : Tiled offset cs front) (h' : Tiled (offset + byteLength cs) ds back) :
    Tiled offset (cs ++ ds) (front ++ back) := by
  induction h with
  | gap hg => exact h'.behind hg
  | token hg hw _ ih =>
      rw [List.append_assoc, List.append_assoc]
      refine .token hg hw (ih ?_)
      simpa [Nat.add_assoc] using h'

/-- What a scan has found tiles the characters it has used up, whatever follows them. -/
theorem Token.scan_tiled {cursor behind : Cursor} {first : Node} {queued : Option Node}
    (h : scan cursor = .token first queued behind) :
    ∃ used, cursor.rest = used ++ behind.rest ∧
      behind.position.offset = cursor.position.offset + byteLength used ∧
      Tiled cursor.position.offset used (first :: queued.toList) := by
  have honward := scan_onward cursor
  rw [h] at honward
  obtain ⟨⟨used, hused, hoffset⟩, -⟩ := honward
  obtain ⟨rest, position⟩ := cursor
  obtain rfl : rest = used ++ behind.rest := hused
  -- The characters behind are cut off, so that nothing but a gap is left behind the token.
  have hcut := @scan_cut behind.rest position position rfl used
  rw [h] at hcut
  obtain ⟨⟨kept, place⟩, rfl, -, hscan⟩ := hcut [] rfl
  have htiles := scanFrom_tiles position used
  rw [scan] at hscan
  rw [hscan] at htiles
  refine ⟨used, rfl, hoffset, ?_⟩
  simpa using htiles [] (.gap .nil)

/-- Up to the first fault, the characters behind a cursor are tiled by the tokens, and the fault
covers what it is about. -/
theorem Cursor.fault_placed {source : String} {before : List Char} {cursor : Cursor}
    {tokens : List Node} {fault : LexicalFault} {later : List Reading}
    (hsource : source.toList = before ++ cursor.rest)
    (hoffset : cursor.position.offset = byteLength before)
    (h : cursor.readings = tokens.map .ok ++ .error fault :: later) :
    (∃ front behind, cursor.rest = front ++ behind ∧
        fault.span.start = cursor.position.offset + byteLength front ∧
        Tiled cursor.position.offset front tokens) ∧
      fault.Covers source := by
  have honward := scan_onward cursor
  fun_induction readings cursor generalizing tokens before with
  | case1 cursor behind hscan => simp at h
  | case2 cursor first queued behind hscan ih =>
      obtain ⟨used, hused, hstop, htiled⟩ := scan_tiled hscan
      obtain ⟨others, rfl, hothers⟩ := @eq_append_of_fault (first :: queued.toList) _ _ _ _ h
      obtain ⟨⟨front, left, hrest, hstart, htokens⟩, hcovers⟩ := @ih (before ++ used) others
        (by rw [hsource, hused, List.append_assoc])
        (by rw [hstop, hoffset, byteLength_append]) hothers (scan_onward behind)
      rw [hstop] at htokens hstart
      refine ⟨⟨used ++ front, left, ?_, ?_, htiled.append htokens⟩, hcovers⟩
      · rw [hused, hrest, List.append_assoc]
      · rw [hstart, byteLength_append, Nat.add_assoc]
  | case3 cursor character span behind hscan ih =>
      rw [hscan] at honward
      obtain ⟨rfl, rfl⟩ := eq_of_fault_first h
      obtain ⟨gap, hg, hcs, hstart, hstop, -⟩ := honward
      refine ⟨⟨gap, _, hcs, hstart, .gap hg⟩, before ++ gap, behind.rest,
        by simp [hsource, hcs], ?_⟩
      rw [byteLength_append, ← hoffset, ← hstart, byteLength_cons, byteLength_nil, Nat.add_zero,
        ← hstop]
      rfl
  | case4 cursor opening behind hscan =>
      rw [hscan] at honward
      obtain ⟨rfl, rfl⟩ := eq_of_fault_first h
      obtain ⟨gap, body, hg, hcs, hbody, hstart, hstop⟩ := honward
      refine ⟨⟨gap, _, hcs, hstart, .gap hg⟩, ?_⟩
      refine @unclosed_covers _ (before ++ gap) body _ _ (by simp [hsource, hcs]) hbody ?_ ?_
      · rw [hstart, hoffset, byteLength_append]
      · rw [hstop, hoffset, ← byteLength_append, ← hsource, byteLength_toList]

/-! ### Sources -/

/-- A lexical fault covers what it is about. In front of it there are tokens, as they are
written, and gaps. -/
structure LexicalFault.Located (source : String) (tokens : List Node) (fault : LexicalFault) :
    Prop where
  covers : fault.Covers source
  spelled : ∀ token ∈ tokens, token.isLeaf = true ∧
    ∃ lexeme, Slice source token.span lexeme ∧ Spelling token.kind token.text lexeme
  gaps : ∀ span ∈ gapSpans 0 fault.span.start tokens, ∃ gap, Slice source span gap ∧ Gap gap

/-- The first lexical fault of a source is located. -/
theorem located_of_ahead {source : String} {tokens : List Node} {fault : LexicalFault}
    {later : List Reading}
    (h : (TokenStream.ofString source).ahead = tokens.map .ok ++ .error fault :: later) :
    fault.Located source tokens := by
  obtain ⟨⟨front, behind, hrest, hstart, htiled⟩, hcovers⟩ :=
    @Cursor.fault_placed source [] (.ofString source) _ _ _ rfl rfl h
  have hsource : source.toList = (String.ofList front).toList ++ behind := by
    rwa [String.toList_ofList]
  have hfront : (String.ofList front).toList = [] ++ front := by rw [String.toList_ofList]; rfl
  have hsize : fault.span.start = (String.ofList front).utf8ByteSize := by
    rw [utf8ByteSize_ofList, hstart]
    exact Nat.zero_add _
  refine ⟨hcovers, ?_, ?_⟩
  · intro token hm
    obtain ⟨hleaf, lexeme, hslice, hspelling⟩ :=
      @Tiled.tokens_spelled _ [] front tokens htiled hfront token hm
    exact ⟨hleaf, lexeme, hslice.of_front hsource, hspelling⟩
  · rw [hsize]
    intro span hm
    obtain ⟨gap, hslice, hg⟩ := @Tiled.gaps _ [] front tokens htiled hfront span hm
    exact ⟨gap, hslice.of_front hsource, hg⟩

end MiniSmalltalk
