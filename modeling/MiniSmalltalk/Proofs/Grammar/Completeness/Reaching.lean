import MiniSmalltalk.Proofs.Grammar.Exactness

/-! # Reading whole constructs

Two things are shown of every construct along a derivation: where nothing follows that could
continue it, its reader takes exactly its tokens and gives its tree; and whatever follows, a
reader that does not fail takes at least its tokens. The second part gives the longest match,
the first one everything else. -/

namespace MiniSmalltalk.Grammar

variable {α β : Type} {limit depth count : Nat} {view later rest target : List Reading}

/-! ### Reaching a place -/

/-- Unless it fails, a reader takes everything in front of `rest`, and possibly more. -/
def Reaches (view : List Reading) (reader : Reader α) (rest : List Reading) : Prop :=
  Reads view reader reader fun _ later => later <:+ rest

theorem Returns.reaches {reader : Reader α} {value : α} (h : Returns view reader value rest) :
    Reaches view reader rest := by
  apply h.reads.mono
  rintro _ _ ⟨-, rfl⟩
  exact List.suffix_refl _

theorem Returns.bind_reaches {reader : Reader α} {value : α} {next : α → Reader β}
    (h : Returns view reader value later) (hn : Reaches later (next value) rest) :
    Reaches view (reader >>= next) rest :=
  h.bind_reads hn

theorem Reaches.bind {reader : Reader α} {next : α → Reader β} (h : Reaches view reader rest)
    (hn : ∀ value later, later <:+ rest → Reaches later (next value) later) :
    Reaches view (reader >>= next) rest := by
  apply Reads.bind h
  intro value later hs
  exact (hn value later hs).mono fun _ _ hl => hl.trans hs

theorem Reaches.map {reader : Reader α} {f : α → β} (h : Reaches view reader rest) :
    Reaches view (reader >>= fun value => pure (f value)) rest :=
  h.bind fun _ _ _ => Returns.pure.reaches

theorem Found.suffix {language : List Node → α → Prop} {stop : List Reading → List Reading → Prop}
    (hstop : ∀ {view later}, stop view later → later <:+ view) {found : Option α}
    (h : Found language stop view found later) : later <:+ view := by
  cases found with
  | none => exact hstop h
  | some value =>
      obtain ⟨tokens, rfl, -, -⟩ := h
      exact List.suffix_append _ _

theorem Matched.suffix {language : List Node → α → Prop} {found : Option α}
    (h : Matched language view found later) : later <:+ view := by
  refine Found.suffix ?_ h
  rintro view later rfl
  exact List.suffix_refl _

theorem DotPassed.suffix (h : DotPassed view later) : later <:+ view := by
  obtain ⟨last, -, rfl⟩ := h.optionally
  exact List.suffix_append _ _

theorem length_tokensIn_le_of_suffix (h : later <:+ view) :
    (tokensIn later).length ≤ (tokensIn view).length := by
  obtain ⟨front, rfl⟩ := h
  simp [tokensIn]

/-! ### Bounds that suffice -/

/-- A bound on repetitions and one on the depth of inner expressions suffice for what lies
ahead. -/
structure Enough (limit depth : Nat) (view : List Reading) : Prop where
  repetitions : (tokensIn view).length < limit
  levels : (tokensIn view).length ≤ depth

namespace Enough

theorem suffix (h : Enough limit depth view) (hs : later <:+ view) : Enough limit depth later := by
  have hle := length_tokensIn_le_of_suffix hs
  exact ⟨Nat.lt_of_le_of_lt hle h.repetitions, Nat.le_trans hle h.levels⟩

theorem behind {tokens : List Node} (h : Enough limit depth (tokens.map .ok ++ rest)) :
    Enough limit depth rest :=
  h.suffix (List.suffix_append _ _)

theorem tail {token : Node} (h : Enough limit depth (.ok token :: rest)) :
    Enough limit depth rest :=
  h.suffix (List.suffix_cons _ _)

/-- Behind a token, one level less suffices. -/
theorem inside {token : Node} (h : Enough limit depth (.ok token :: rest)) :
    ∃ fewer, depth = fewer + 1 ∧ Enough limit fewer rest := by
  have hd := h.levels
  rw [tokensIn_cons_ok, List.length_cons] at hd
  obtain ⟨fewer, rfl⟩ := Nat.exists_eq_add_of_lt hd
  refine ⟨(tokensIn rest).length + fewer, by omega, h.tail.repetitions, by omega⟩

/-- The depth of expressions bounds the repetitions inside them, too. -/
theorem deepen (h : Enough limit depth view) : Enough (depth + 1) depth view :=
  ⟨Nat.lt_succ_of_le h.levels, h.levels⟩

theorem inner (h : Enough limit depth view) :
    Inner (tokensIn view).length (expressionUpTo depth) (expressionUpTo depth) := by
  intro later hl
  rw [expressionUpTo_eq]
  exact expressionOver_reads _ _ (Nat.lt_of_lt_of_le hl h.levels) (Nat.lt_of_lt_of_le hl h.levels)

end Enough

/-! ### Constructs that are read completely -/

/-- A reader takes the tokens of a construct. It takes just these and gives their value if
the construct has ended with them. -/
structure Complete (reader : Nat → Nat → Reader (Option α)) (ended : List Reading → Prop)
    (tokens : List Node) (value : α) : Prop where
  returns : ∀ {limit depth rest}, Enough limit depth (tokens.map .ok ++ rest) → ended rest →
    Returns (tokens.map .ok ++ rest) (reader limit depth) (some value) rest
  reaches : ∀ {limit depth rest}, Enough limit depth (tokens.map .ok ++ rest) →
    Reaches (tokens.map .ok ++ rest) (reader limit depth) rest

/-- A construct that ends with its last token, whatever follows. -/
abbrev Always (_ : List Reading) : Prop := True

theorem Complete.always {reader : Nat → Nat → Reader (Option α)} {tokens : List Node} {value : α}
    (h : ∀ {limit depth rest}, Enough limit depth (tokens.map .ok ++ rest) →
      Returns (tokens.map .ok ++ rest) (reader limit depth) (some value) rest) :
    Complete reader Always tokens value :=
  ⟨fun he _ => h he, fun he => (h he).reaches⟩

section Repetition

variable {reader : Nat → Nat → Reader (Option α)} {ended : List Reading → Prop}
  {pieces : List (Piece α)}

theorem many_complete_returns
    (hp : ∀ piece ∈ pieces, Complete reader ended piece.tokens piece.value)
    (hs : ∀ piece ∈ pieces, ∀ later, ended (piece.tokens.map .ok ++ later))
    (hne : ∀ piece ∈ pieces, piece.tokens ≠ []) (hr : ended rest)
    (hend : Returns rest (reader limit depth) none later)
    (he : Enough limit depth ((Piece.tokensOf pieces).map .ok ++ rest)) :
    Returns ((Piece.tokensOf pieces).map .ok ++ rest) (many (reader limit depth) limit)
      (Piece.values pieces) later := by
  have hlimit := he.repetitions
  have hdepth := he.levels
  refine many_returns ?_ hs hne hr hend (Nat.le_refl _) hlimit
  intro piece hm later hl hb
  exact (hp piece hm).returns ⟨by omega, by omega⟩ hl

/-- Where the last piece has ended, the repetition goes on as it does from there. -/
theorem many_continues (hp : ∀ piece ∈ pieces, Complete reader ended piece.tokens piece.value)
    (hs : ∀ piece ∈ pieces, ∀ later, ended (piece.tokens.map .ok ++ later))
    (hne : ∀ piece ∈ pieces, piece.tokens ≠ []) (hr : ended rest)
    (hthen : ∀ {count}, (tokensIn rest).length < count →
      Reaches rest (many (reader limit depth) count) target)
    (he : Enough limit depth ((Piece.tokensOf pieces).map .ok ++ rest))
    (hc : (tokensIn ((Piece.tokensOf pieces).map .ok ++ rest)).length < count) :
    Reaches ((Piece.tokensOf pieces).map .ok ++ rest) (many (reader limit depth) count) target := by
  induction pieces generalizing count with
  | nil => exact hthen hc
  | cons piece pieces ih =>
      have hpos := List.length_pos_iff.mpr (hne piece (by simp))
      simp only [Piece.tokensOf_cons, List.map_append, List.append_assoc] at he hc ⊢
      have hstop : ended ((Piece.tokensOf pieces).map .ok ++ rest) := by
        cases pieces with
        | nil => exact hr
        | cons next others => simpa using hs next (by simp) _
      cases count with
      | zero => omega
      | succ count =>
          rw [tokensIn_append, List.length_append] at hc
          have hothers := ih (fun piece hm => hp piece (by simp [hm]))
            (fun piece hm => hs piece (by simp [hm])) (fun piece hm => hne piece (by simp [hm]))
            he.behind (by omega : _ < count)
          refine ((hp piece (by simp)).returns he hstop).bind_reaches (hothers.bind ?_)
          intro others later _
          exact Returns.pure.reaches

/-- A repetition takes all its pieces even where the last one could go on. -/
theorem many_reaches (hp : ∀ piece ∈ pieces, Complete reader ended piece.tokens piece.value)
    (hs : ∀ piece ∈ pieces, ∀ later, ended (piece.tokens.map .ok ++ later))
    (hne : ∀ piece ∈ pieces, piece.tokens ≠ [])
    (hself : ∀ {count later}, Enough limit depth later → (tokensIn later).length < count →
      Reaches later (many (reader limit depth) count) later)
    (he : Enough limit depth ((Piece.tokensOf pieces).map .ok ++ rest)) :
    Reaches ((Piece.tokensOf pieces).map .ok ++ rest) (many (reader limit depth) limit) rest := by
  rcases List.eq_nil_or_concat pieces with rfl | ⟨front, last, rfl⟩
  · exact hself he he.repetitions
  · have hlast := hp last (by simp)
    have hpos := List.length_pos_iff.mpr (hne last (by simp))
    have hview : (Piece.tokensOf (front ++ [last])).map .ok ++ rest =
        (Piece.tokensOf front).map .ok ++ (last.tokens.map Except.ok ++ rest) := by
      simp [Piece.tokensOf]
    rw [List.concat_eq_append] at *
    rw [hview] at he ⊢
    refine many_continues (fun piece hm => hp piece (by simp [hm]))
      (fun piece hm => hs piece (by simp [hm])) (fun piece hm => hne piece (by simp [hm]))
      (hs last (by simp) rest) ?_ he he.repetitions
    intro count hc
    cases count with
    | zero => omega
    | succ count =>
        rw [tokensIn_append, List.length_append] at hc
        apply (hlast.reaches he.behind).bind
        intro found later hl
        cases found with
        | none => exact Returns.pure.reaches
        | some first =>
            have hle := length_tokensIn_le_of_suffix hl
            exact (hself (he.behind.behind.suffix hl) (by omega)).map

/-- Whatever a repetition finds, it only takes from the front. -/
theorem many_reaches_self {item : Reader (Option α)} {language : List Node → α → Prop}
    {stop : List Reading → List Reading → Prop}
    (hitem : ∀ later, (tokensIn later).length ≤ (tokensIn view).length →
      Reads later item item (Found language stop later))
    (hstop : ∀ {view later}, stop view later → later <:+ view)
    (hc : (tokensIn view).length < count) : Reaches view (many item count) view := by
  apply (many_reads hitem (Nat.le_refl _) hc hc).mono
  rintro values later ⟨pieces, rest, rfl, hs, -, -⟩
  exact (hstop hs).trans (List.suffix_append _ _)

theorem many_reaches_matched {item : Reader (Option α)} {language : List Node → α → Prop}
    (hitem : ∀ later, (tokensIn later).length ≤ (tokensIn view).length →
      Reads later item item (Matched language later))
    (hc : (tokensIn view).length < count) : Reaches view (many item count) view := by
  apply many_reaches_self hitem ?_ hc
  intro view later heq
  subst heq
  exact List.suffix_refl _

end Repetition

/-! ### Phrases -/

abbrev continuesExpression : List Kind := [.identifier, .binary, .keyword, .semicolon, .assignment]

/-- The kinds of tokens that can continue a program, also behind its last dot. -/
abbrev continuesProgram : List Kind :=
  [.dot, .identifier, .integer, .binary, .string, .leftSquareBracket, .leftParenthesis, .keyword,
    .semicolon, .assignment]

/-- What running along a derivation shows of each phrase. Of a segment of a keyword message,
selector and argument have to be known apart. -/
abbrev Completed : Phrase → List Node → Node → Prop
  | .program => Complete (fun limit depth => statements limit (expressionUpTo (depth + 1)))
      (Stops (isAnyOf continuesProgram))
  | .nextStatement => Complete (fun _ depth => nextStatement (expressionUpTo (depth + 1)))
      (Stops (isAnyOf continuesExpression))
  | .expression => Complete (fun _ depth => expressionUpTo (depth + 1))
      (Stops (isAnyOf continuesExpression))
  | .cascade => Complete (fun limit depth => cascade limit (expressionUpTo depth))
      (Stops (isAnyOf (Phrase.firstKinds .messages)))
  | .messages => Complete (fun limit depth => messages limit (expressionUpTo depth))
      (Stops (isAnyOf (Phrase.firstKinds .messages)))
  | .binaryMessage =>
      Complete (fun limit depth => binaryMessage limit (expressionUpTo depth)) Always
  | .keywordSegment => fun tokens segment =>
      ∃ selector words argument, tokens = selector :: words ∧ segment = selector.atop [argument] ∧
        Terminal .keyword selector ∧
        Complete (fun limit depth => primary limit (expressionUpTo depth)) Always words argument
  | .primary => Complete (fun limit depth => primary limit (expressionUpTo depth)) Always

def AllCompleted (phrase : Phrase) (pieces : List (Piece Node)) : Prop :=
  ∀ piece ∈ pieces, Completed phrase piece.tokens piece.value

/-- Pieces that all begin with a token of the same phrase. -/
def BeginAll (phrase : Phrase) (pieces : List (Piece α)) : Prop :=
  ∀ piece ∈ pieces, ∃ token words, piece.tokens = token :: words ∧ Begins phrase token

theorem BeginAll.tokens_ne_nil {phrase : Phrase} {pieces : List (Piece α)}
    (h : BeginAll phrase pieces) : ∀ piece ∈ pieces, piece.tokens ≠ [] := by
  intro piece hm
  obtain ⟨token, words, ht, -⟩ := h piece hm
  simp [ht]

theorem BeginAll.stops_piece {phrase : Phrase} {pieces : List (Piece α)}
    (h : BeginAll phrase pieces) {kinds : List Kind}
    (hk : ∀ kind ∈ phrase.firstKinds, kind ∉ kinds) :
    ∀ piece ∈ pieces, ∀ later, Stops (isAnyOf kinds) (piece.tokens.map .ok ++ later) := by
  intro piece hm later
  obtain ⟨token, words, ht, hb⟩ := h piece hm
  rw [ht]
  exact hb.stops hk _

theorem BeginAll.stops {phrase : Phrase} {pieces : List (Piece α)} (h : BeginAll phrase pieces)
    {kinds : List Kind} (hk : ∀ kind ∈ phrase.firstKinds, kind ∉ kinds)
    (hr : pieces = [] → Stops (isAnyOf kinds) rest) :
    Stops (isAnyOf kinds) ((Piece.tokensOf pieces).map .ok ++ rest) := by
  cases pieces with
  | nil => exact hr rfl
  | cons piece pieces =>
      have hfirst := h.stops_piece hk piece (by simp)
      simpa using hfirst ((Piece.tokensOf pieces).map .ok ++ rest)

theorem Derivation.beginAll {phrase : Phrase} {pieces : List (Piece Node)}
    (h : ∀ piece ∈ pieces, Derivation phrase piece.tokens piece.value) : BeginAll phrase pieces :=
  fun piece hm => (h piece hm).begins

end MiniSmalltalk.Grammar
