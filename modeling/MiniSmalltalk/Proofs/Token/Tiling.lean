import MiniSmalltalk.Proofs.Token.Spelling

/-! # Tokens tile their source

The tokens of a source and the gaps between them cover it without overlap, and every token
stands exactly where it is written. -/

namespace MiniSmalltalk

def Node.word (token : Node) : Kind × Option String := (token.kind, token.text)

namespace Token

/-! ### Tiled characters -/

/-- From an offset on, characters are gaps and spelled tokens by turns. -/
inductive Tiled : Nat → List Char → List Node → Prop where
  | gap {offset : Nat} {cs : List Char} : Gap cs → Tiled offset cs []
  | token {offset : Nat} {gap lexeme rest : List Char} {token : Node} {tokens : List Node} :
      Gap gap → Written (offset + byteLength gap) lexeme token →
      Tiled (offset + byteLength gap + byteLength lexeme) rest tokens →
      Tiled offset (gap ++ (lexeme ++ rest)) (token :: tokens)

theorem Tiled.behind {offset : Nat} {gap cs : List Char} {tokens : List Node} (hg : Gap gap)
    (h : Tiled (offset + byteLength gap) cs tokens) : Tiled offset (gap ++ cs) tokens := by
  cases h with
  | gap h => exact .gap (hg.append h)
  | @token _ inner _ _ _ _ hi hw ht =>
      rw [← List.append_assoc]
      refine .token (hg.append hi) ?_ ?_
      · rwa [byteLength_append, ← Nat.add_assoc]
      · rwa [byteLength_append, ← Nat.add_assoc]

/-- What a scan has found tiles the characters in front of its cursor. -/
def Tiles (offset : Nat) (cs : List Char) : Scan → Prop
  | .finished _ => Gap cs
  | .token first queued behind => ∀ tokens, Tiled behind.position.offset behind.rest tokens →
      Tiled offset cs (first :: (queued.toList ++ tokens))
  | .unknown _ _ _ => True
  | .unclosed _ _ => True

theorem Tiles.ite {test : Prop} [Decidable test] {yes no : Scan} {offset : Nat}
    {cs : List Char} (hy : test → Tiles offset cs yes) (hn : ¬ test → Tiles offset cs no) :
    Tiles offset cs (if test then yes else no) := by
  by_cases h : test
  · rw [if_pos h]
    exact hy h
  · rw [if_neg h]
    exact hn h

theorem written_advanceAll {kind : Kind} {text : Option String} {lexeme : List Char}
    (h : Spelling kind text lexeme) (p : Position) :
    Written p.offset lexeme ⟨kind, text, [], ⟨p.offset, (p.advanceAll lexeme).offset⟩⟩ :=
  ⟨rfl, h, by rw [Position.advanceAll_offset]⟩

theorem tiles_token {p : Position} {kind : Kind} {text : Option String}
    {lexeme rest : List Char} {behind : Cursor} (h : Spelling kind text lexeme)
    (hr : behind.rest = rest) (ho : behind.position.offset = (p.advanceAll lexeme).offset) :
    Tiles p.offset (lexeme ++ rest)
      (.token ⟨kind, text, [], ⟨p.offset, (p.advanceAll lexeme).offset⟩⟩ none behind) := by
  intro tokens ht
  rw [hr, ho, Position.advanceAll_offset] at ht
  exact .token .nil (written_advanceAll h p) ht

theorem single_tiles {kind : Kind} {c : Char} (h : Spelling kind (some (String.ofList [c])) [c])
    (p : Position) (cs : List Char) : Tiles p.offset (c :: cs) (single kind p c cs) := by
  rw [← String.singleton_eq_ofList] at h
  exact @tiles_token p _ _ _ cs _ h rfl rfl

theorem word_tiles {c : Char} (hc : c.isAlpha = true) (p : Position) (cs : List Char) :
    Tiles p.offset (c :: cs) (word p c cs) := by
  have hname : ∀ d ∈ cs.takeWhile Char.isAlphanum, d.isAlphanum = true :=
    List.all_eq_true.mp List.all_takeWhile
  have hsplit : c :: cs = (c :: cs.takeWhile Char.isAlphanum) ++ cs.dropWhile Char.isAlphanum := by
    simp
  by_cases hcolon : ∃ rest, cs.dropWhile Char.isAlphanum = ':' :: rest
  · obtain ⟨rest, hrest⟩ := hcolon
    by_cases hassign : ∃ more, rest = '=' :: more
    · -- The name and the sign are two tokens with nothing between them.
      obtain ⟨more, rfl⟩ := hassign
      rw [word_of_assignment hrest, hsplit, hrest]
      intro tokens ht
      refine .token .nil (written_advanceAll (.identifier hc hname) p) ?_
      have hsign := written_advanceAll .assignment
        (p.advanceAll (c :: cs.takeWhile Char.isAlphanum))
      rw [Position.advanceAll_offset] at ht
      rw [byteLength_nil, Nat.add_zero, ← Position.advanceAll_offset]
      exact .token .nil hsign ht
    · have hkey : c :: cs = (c :: (cs.takeWhile Char.isAlphanum ++ [':'])) ++ rest := by
        rw [hsplit, hrest]
        simp
      rw [word_of_colon hrest (fun more h => hassign ⟨more, h⟩), hkey]
      exact tiles_token (.keyword hc hname) (Cursor.settle_rest _) (Cursor.settle_offset _)
  · rw [word_of_not_colon (fun rest h => hcolon ⟨rest, h⟩), hsplit]
    exact tiles_token (.identifier hc hname) (Cursor.settle_rest _) (Cursor.settle_offset _)

theorem digits_tiles {c : Char} (hc : c.isDigit = true) (p : Position) (cs : List Char) :
    Tiles p.offset (c :: cs) (digits p c cs) := by
  have hdigits : ∀ d ∈ cs.takeWhile Char.isDigit, d.isDigit = true :=
    List.all_eq_true.mp List.all_takeWhile
  have hsplit : c :: cs = (c :: cs.takeWhile Char.isDigit) ++ cs.dropWhile Char.isDigit := by
    simp
  rw [hsplit]
  exact tiles_token (.integer hc hdigits) (Cursor.settle_rest _) (Cursor.settle_offset _)

theorem quoted_tiles (p : Position) (cs : List Char) :
    Tiles p.offset (Text.Quoted.tick :: cs) (quoted p Text.Quoted.tick cs) := by
  unfold quoted
  split
  · rename_i text rest hsplit
    have hcs : Text.Quoted.tick :: cs =
        (Text.Quoted.tick :: (Text.Quoted.encode text ++ [Text.Quoted.tick])) ++ rest := by
      rw [Text.Quoted.eq_encode_of_split? cs hsplit]
      simp
    rw [hcs]
    exact tiles_token .string (Cursor.settle_rest _) (Cursor.settle_offset _)
  · trivial

theorem colon_tiles (p : Position) (cs : List Char) :
    Tiles p.offset (':' :: cs) (colon p cs) := by
  have hmark : Spelling .colon (some ":") [':'] := .mark (by decide)
  by_cases h : ∃ rest, cs = '=' :: rest
  · obtain ⟨rest, rfl⟩ := h
    exact @tiles_token p _ _ _ rest _ .assignment rfl rfl
  · rw [colon_of_not_equals fun rest hr => h ⟨rest, hr⟩]
    exact @tiles_token p _ _ _ cs _ hmark (Cursor.settle_rest _) (Cursor.settle_offset _)

theorem read_tiles (p : Position) (c : Char) (cs : List Char) :
    Tiles p.offset (c :: cs) (read p c cs) := by
  have hmark : ∀ {kind : Kind} {d : Char}, (kind, d) ∈ marks → c = d →
      Tiles p.offset (c :: cs) (single kind p c cs) := by
    rintro kind d hd rfl
    exact single_tiles (.mark hd) p cs
  unfold read
  refine .ite ?_ fun _ => .ite (hmark (by decide)) fun _ => .ite (hmark (by decide)) fun _ =>
    .ite (hmark (by decide)) fun _ => .ite (hmark (by decide)) fun _ =>
    .ite (hmark (by decide)) fun _ => .ite (hmark (by decide)) fun _ => .ite ?_ fun _ =>
    .ite ?_ fun _ => .ite (fun h => single_tiles (.binary h) p cs) fun _ =>
    .ite (fun h => word_tiles h p cs) fun _ => .ite (fun h => digits_tiles h p cs) fun _ => trivial
  · rintro rfl
    exact @tiles_token p _ _ _ cs _ .answer rfl rfl
  · rintro rfl
    exact quoted_tiles p cs
  · rintro rfl
    exact colon_tiles p cs

/-- Whatever a scan finds tiles the characters up to its cursor. -/
theorem scanFrom_tiles (p : Position) (cs : List Char) :
    Tiles p.offset cs (scanFrom none p cs) := by
  cases layout cs with
  | gap hg =>
      have hscan := scanFrom_gap hg p []
      rw [List.append_nil] at hscan
      rw [hscan]
      exact hg
  | @token gap rest c hg hc =>
      rw [scanFrom_gap hg, scanFrom_of_starts hc]
      have hread := read_tiles (p.advanceAll gap) c rest
      cases hr : read (p.advanceAll gap) c rest with
      | finished behind =>
          rw [hr, Position.advanceAll_offset] at hread
          exact hg.append hread
      | token first queued behind =>
          rw [hr, Position.advanceAll_offset] at hread
          exact fun tokens ht => (hread tokens ht).behind hg
      | unknown character span behind => trivial
      | unclosed opening behind => trivial
  | unclosed hg hb =>
      rw [scanFrom_gap hg, scanFrom_quotationMark, scanFrom_unclosed hb]
      trivial

end Token

open Token

theorem Cursor.tiled {cursor : Cursor} {tokens : List Node}
    (h : cursor.readings = tokens.map .ok) :
    Tiled cursor.position.offset cursor.rest tokens := by
  have hs := scanFrom_tiles cursor.position cursor.rest
  fun_induction readings cursor generalizing tokens with
  | case1 cursor behind hscan =>
      obtain rfl : tokens = [] := by simpa using h.symm
      rw [Token.scan] at hscan
      rw [hscan] at hs
      exact .gap hs
  | case2 cursor token queued behind hscan ih =>
      rw [Token.scan] at hscan
      rw [hscan] at hs
      obtain ⟨head, others, rfl, hhead, hothers⟩ := List.map_eq_cons_iff.mp h.symm
      obtain ⟨front, later, rfl, hfront, hlater⟩ := List.map_eq_append_iff.mp hothers
      obtain rfl := Except.ok.inj hhead
      obtain rfl := (List.map_inj_right fun _ _ => Except.ok.inj).mp hfront
      exact hs later (ih hlater.symm (scanFrom_tiles behind.position behind.rest))
  | case3 cursor character span behind hscan ih => cases tokens <;> simp at h
  | case4 cursor opening behind hscan => cases tokens <;> simp at h

theorem tiled_of_tokenize {source : String} {tokens : List Node}
    (h : tokenize source = .ok tokens) : Tiled 0 source.toList tokens := by
  have hahead := tokenize_eq_ok_iff.mp h
  exact @Cursor.tiled (.ofString source) tokens hahead

/-! ### Slices of a source -/

/-- Characters stand at a span of a source. -/
def Slice (source : String) (span : Span) (cs : List Char) : Prop :=
  ∃ before behind, source.toList = before ++ (cs ++ behind) ∧
    span = ⟨byteLength before, byteLength before + byteLength cs⟩

/-- The spans around tokens: up to the first one, between two of them and behind the last. -/
def gapSpans (offset stop : Nat) : List Node → List Span
  | [] => [⟨offset, stop⟩]
  | token :: tokens => ⟨offset, token.span.start⟩ :: gapSpans token.span.stop stop tokens

theorem Slice.stop_le {source : String} {span : Span} {cs : List Char}
    (h : Slice source span cs) : span.stop ≤ source.utf8ByteSize := by
  obtain ⟨before, behind, hsource, rfl⟩ := h
  rw [← byteLength_toList, hsource, byteLength_append, byteLength_append]
  simp only
  omega

namespace Token

theorem Tiled.tokens_spelled {source : String} {before cs : List Char} {tokens : List Node}
    (h : Tiled (byteLength before) cs tokens) (hsource : source.toList = before ++ cs) :
    ∀ token ∈ tokens, token.isLeaf = true ∧
      ∃ lexeme, Slice source token.span lexeme ∧ Spelling token.kind token.text lexeme := by
  generalize ho : byteLength before = offset at h
  induction h generalizing before with
  | gap => simp
  | @token _ gap lexeme rest token tokens _ hw _ ih =>
      subst ho
      intro found hm
      rcases List.mem_cons.mp hm with rfl | hm
      · refine ⟨hw.leaf, lexeme, ⟨before ++ gap, rest, ?_, ?_⟩, hw.spelling⟩
        · rw [hsource, List.append_assoc]
        · rw [hw.span_eq, byteLength_append]
      · refine @ih (before ++ gap ++ lexeme) ?_ ?_ found hm
        · simp [hsource]
        · simp [Nat.add_assoc]

theorem Tiled.gaps {source : String} {before cs : List Char} {tokens : List Node}
    (h : Tiled (byteLength before) cs tokens) (hsource : source.toList = before ++ cs) :
    ∀ span ∈ gapSpans (byteLength before) source.utf8ByteSize tokens,
      ∃ gap, Slice source span gap ∧ Gap gap := by
  generalize ho : byteLength before = offset at h ⊢
  induction h generalizing before with
  | @gap _ cs hg =>
      subst ho
      intro span hm
      obtain rfl := List.mem_singleton.mp hm
      refine ⟨cs, ⟨before, [], by simpa using hsource, ?_⟩, hg⟩
      rw [← byteLength_toList, hsource, byteLength_append]
  | @token _ gap lexeme rest token tokens hg hw _ ih =>
      subst ho
      intro span hm
      rcases List.mem_cons.mp hm with rfl | hm
      · refine ⟨gap, ⟨before, lexeme ++ rest, by simpa using hsource, ?_⟩, hg⟩
        rw [hw.span_eq]
      · refine @ih (before ++ gap ++ lexeme) ?_ ?_ span ?_
        · simp [hsource]
        · simp [Nat.add_assoc]
        · rw [hw.span_eq] at hm
          exact hm

theorem Tiled.start_le {offset : Nat} {cs : List Char} {tokens : List Node}
    (h : Tiled offset cs tokens) : ∀ token ∈ tokens, offset ≤ token.span.start := by
  induction h with
  | gap => simp
  | token _ hw _ ih =>
      intro found hm
      rcases List.mem_cons.mp hm with rfl | hm
      · rw [hw.span_eq]
        exact Nat.le_add_right _ _
      · have := ih found hm
        omega

theorem Tiled.ordered {offset : Nat} {cs : List Char} {tokens : List Node}
    (h : Tiled offset cs tokens) :
    tokens.Pairwise fun first second => first.span.stop ≤ second.span.start := by
  induction h with
  | gap => exact .nil
  | token _ hw ht ih =>
      refine .cons ?_ ih
      intro second hm
      rw [hw.span_eq]
      exact ht.start_le second hm

end Token

/-- Every token covers a stretch of its source that spells it and nothing else, the tokens
follow one another without overlap, and whatever lies between them is a gap. -/
theorem tokenize_tiles (source : String) (tokens : List Node) (h : tokenize source = .ok tokens) :
    (∀ token ∈ tokens, token.isLeaf = true ∧ token.span.start < token.span.stop ∧
      token.span.stop ≤ source.utf8ByteSize ∧
      ∃ lexeme, Slice source token.span lexeme ∧ Spelling token.kind token.text lexeme ∧
        ∀ kind text, Spelling kind text lexeme → kind = token.kind ∧ text = token.text) ∧
    tokens.Pairwise (fun first second => first.span.stop ≤ second.span.start) ∧
    ∀ span ∈ gapSpans 0 source.utf8ByteSize tokens, ∃ gap, Slice source span gap ∧ Gap gap := by
  have ht := tiled_of_tokenize h
  have hsource : source.toList = [] ++ source.toList := rfl
  refine ⟨?_, ht.ordered, @Tiled.gaps source [] _ tokens ht hsource⟩
  intro token hm
  obtain ⟨hleaf, lexeme, hslice, hspelling⟩ :=
    @Tiled.tokens_spelled source [] _ _ ht hsource token hm
  refine ⟨hleaf, ?_, hslice.stop_le, lexeme, hslice, hspelling, fun _ _ => hspelling.unique⟩
  obtain ⟨before, behind, -, hspan⟩ := hslice
  have hpos := byteLength_pos hspelling.ne_nil
  rw [hspan]
  simp only
  omega

/-- The comment and the string of this source hold characters of two bytes. -/
theorem tokenize_tiles_two_bytes :
    ∃ tokens, tokenize "\"é\" 'à''b' a:=1" = .ok tokens ∧
      tokens.map Node.span = [⟨5, 12⟩, ⟨13, 14⟩, ⟨14, 16⟩, ⟨16, 17⟩] ∧
      (∀ token ∈ tokens, token.isLeaf = true ∧ token.span.start < token.span.stop ∧
        token.span.stop ≤ "\"é\" 'à''b' a:=1".utf8ByteSize ∧
        ∃ lexeme, Slice "\"é\" 'à''b' a:=1" token.span lexeme ∧
          Spelling token.kind token.text lexeme ∧
          ∀ kind text, Spelling kind text lexeme → kind = token.kind ∧ text = token.text) ∧
      tokens.Pairwise (fun first second => first.span.stop ≤ second.span.start) ∧
      ∀ span ∈ gapSpans 0 "\"é\" 'à''b' a:=1".utf8ByteSize tokens,
        ∃ gap, Slice "\"é\" 'à''b' a:=1" span gap ∧ Gap gap := by
  have ht : tokenize "\"é\" 'à''b' a:=1" = .ok [.leaf .string "à'b" ⟨5, 12⟩,
      .leaf .identifier "a" ⟨13, 14⟩, .bare .assignment ⟨14, 16⟩, .leaf .integer "1" ⟨16, 17⟩] :=
    rfl
  exact ⟨_, ht, rfl, tokenize_tiles _ _ ht⟩

end MiniSmalltalk
