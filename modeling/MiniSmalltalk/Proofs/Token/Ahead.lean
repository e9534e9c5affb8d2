import MiniSmalltalk.Token.Stream

/-! # What lies ahead of a token stream

Reading hands out the tokens that were given back and then whatever scanning still brings.
Both together are what lies ahead. Every operation of a stream is described by what it does
to this list, and no later proof looks at cursors again. -/

namespace MiniSmalltalk

/-! ### One scan -/

/-- What a scan over `count` characters comes to. Tokens are leaves, and every token uses up a
character of its own. -/
def Scan.Spec (count : Nat) : Scan → Prop
  | .finished behind => behind.rest = []
  | .token first queued behind =>
      first.isLeaf ∧ (∀ second ∈ queued, second.isLeaf) ∧
        behind.rest.length + queued.toList.length < count
  | .unknown _ _ behind => behind.rest.length < count
  | .unclosed _ behind => behind.rest = [] ∧ 0 < count

theorem Scan.Spec.mono {scan : Scan} {count larger : Nat} (h : scan.Spec count)
    (hle : count ≤ larger) : scan.Spec larger := by
  cases scan with
  | finished behind => exact h
  | token token queued behind => exact ⟨h.1, h.2.1, Nat.lt_of_lt_of_le h.2.2 hle⟩
  | unknown character span behind => exact Nat.lt_of_lt_of_le h hle
  | unclosed opening behind => exact ⟨h.1, Nat.lt_of_lt_of_le h.2 hle⟩

theorem Scan.Spec.ite {test : Prop} [Decidable test] {yes no : Scan} {count : Nat}
    (hy : yes.Spec count) (hn : no.Spec count) : (if test then yes else no).Spec count := by
  by_cases h : test
  · rwa [if_pos h]
  · rwa [if_neg h]

namespace Token

theorem single_spec (kind : Kind) (p : Position) (c : Char) (cs : List Char) :
    (single kind p c cs).Spec (cs.length + 1) := by
  simp [single, Scan.Spec]

theorem word_spec (p : Position) (c : Char) (cs : List Char) :
    (word p c cs).Spec (cs.length + 1) := by
  have hle : (cs.dropWhile Char.isAlphanum).length ≤ cs.length :=
    (List.dropWhile_suffix _).length_le
  unfold word
  dsimp only
  split
  · rename_i rest heq
    simp only [heq, List.length_cons] at hle
    simp [Scan.Spec]
    omega
  · rename_i rest _ heq
    simp only [heq, List.length_cons] at hle
    simp [Scan.Spec]
    omega
  · simp [Scan.Spec]
    omega

theorem digits_spec (p : Position) (c : Char) (cs : List Char) :
    (digits p c cs).Spec (cs.length + 1) := by
  have hle : (cs.dropWhile Char.isDigit).length ≤ cs.length :=
    (List.dropWhile_suffix _).length_le
  simp [digits, Scan.Spec]
  omega

theorem quoted_spec (p : Position) (c : Char) (cs : List Char) :
    (quoted p c cs).Spec (cs.length + 1) := by
  unfold quoted
  split
  · rename_i text rest heq
    have hcs := congrArg List.length (Text.Quoted.eq_encode_of_split? cs heq)
    simp only [List.length_append, List.length_cons] at hcs
    simp [Scan.Spec]
    omega
  · simp [Scan.Spec]

theorem colon_spec (p : Position) (cs : List Char) : (colon p cs).Spec (cs.length + 1) := by
  unfold colon
  split
  · refine ⟨rfl, by simp, ?_⟩
    simp only [Option.toList_none, List.length_nil, List.length_cons]
    omega
  · simp [Scan.Spec]

theorem read_spec (p : Position) (c : Char) (cs : List Char) :
    (read p c cs).Spec (cs.length + 1) := by
  unfold read
  refine .ite (by simp [caret, Scan.Spec]) ?_
  iterate 6 refine .ite (single_spec _ p c cs) ?_
  refine .ite (quoted_spec p c cs) (.ite (colon_spec p cs) (.ite (single_spec _ p c cs) ?_))
  refine .ite (word_spec p c cs) (.ite (digits_spec p c cs) ?_)
  simp [Scan.Spec]

theorem scanFrom_spec (opened : Option Nat) (p : Position) (cs : List Char) :
    (scanFrom opened p cs).Spec (cs.length + opened.toList.length) := by
  induction cs generalizing opened p with
  | nil => cases opened <;> simp [scanFrom, Scan.Spec]
  | cons c cs ih =>
      cases opened with
      | some start =>
          simp only [scanFrom]
          refine .ite ((ih none _).mono ?_) ((ih (some start) _).mono ?_) <;> simp
          omega
      | none =>
          simp only [scanFrom]
          refine .ite ((ih (some p.offset) _).mono (by simp)) (.ite ((ih none _).mono (by simp)) ?_)
          exact read_spec p c cs

theorem scan_spec (cursor : Cursor) : (scan cursor).Spec cursor.rest.length := by
  exact scanFrom_spec none cursor.position cursor.rest

end Token

/-! ### Everything that scanning brings -/

/-- What one reading comes to: a token or a fault. -/
abbrev Reading := Except LexicalFault Node

namespace Cursor

def fault (cursor : Cursor) (cause : LexicalCause) (span : Span) : LexicalFault :=
  ⟨cause, span, cursor.position.line, cursor.position.column⟩

/-- The fault of a literal or comment that runs up to a cursor. -/
def unclosed (cursor : Cursor) (opening : Opening) : LexicalFault :=
  cursor.fault opening.cause ⟨opening.start, cursor.position.offset⟩

/-- Everything that scanning from a cursor brings. The fault of a literal or comment without
end comes last, since it is all that scanning brings from then on. -/
def readings (cursor : Cursor) : List Reading :=
  match h : Token.scan cursor with
  | .finished _ => []
  | .token token queued behind => .ok token :: (queued.toList.map .ok ++ readings behind)
  | .unknown character span behind =>
      .error (behind.fault (.unknownCharacter character) span) :: readings behind
  | .unclosed opening behind => [.error (behind.unclosed opening)]
termination_by cursor.rest.length
decreasing_by
  · have hs := Token.scan_spec cursor
    rw [h] at hs
    exact Nat.lt_of_le_of_lt (Nat.le_add_right _ _) hs.2.2
  · have hs := Token.scan_spec cursor
    rw [h] at hs
    exact hs

theorem readings_of_finished {cursor behind : Cursor} (h : Token.scan cursor = .finished behind) :
    cursor.readings = [] := by
  rw [readings]
  split <;> simp_all

theorem readings_of_token {cursor behind : Cursor} {token : Node} {queued : Option Node}
    (h : Token.scan cursor = .token token queued behind) :
    cursor.readings = .ok token :: (queued.toList.map .ok ++ behind.readings) := by
  rw [readings]
  split <;> simp_all

theorem readings_of_unknown {cursor behind : Cursor} {character : Char} {span : Span}
    (h : Token.scan cursor = .unknown character span behind) :
    cursor.readings =
      .error (behind.fault (.unknownCharacter character) span) :: behind.readings := by
  rw [readings]
  split <;> simp_all

theorem readings_of_unclosed {cursor behind : Cursor} {opening : Opening}
    (h : Token.scan cursor = .unclosed opening behind) :
    cursor.readings = [.error (behind.unclosed opening)] := by
  rw [readings]
  split <;> simp_all

theorem readings_of_rest_nil {cursor : Cursor} (h : cursor.rest = []) : cursor.readings = [] := by
  have hscan : Token.scan cursor = .finished ⟨[], cursor.position⟩ := by
    simp [Token.scan, Token.scanFrom, h]
  exact readings_of_finished hscan

end Cursor

/-! ### Streams -/

namespace TokenStream

/-- What scanning brings once nothing is pending any more. -/
def scanned (s : TokenStream) : List Reading :=
  match s.opening with
  | some opening => [.error (s.unclosed opening)]
  | none => s.cursor.readings

/-- What reading still brings: the tokens given back, the latest one first, and then
everything that scanning brings. -/
def ahead (s : TokenStream) : List Reading := s.pending.map .ok ++ s.scanned

/-- Only nodes without children have been given back. -/
def Plain (s : TokenStream) : Prop := ∀ token ∈ s.pending, token.isLeaf = true

theorem plain_ofString (source : String) : (ofString source).Plain := by
  simp [ofString, Plain]

/-- What one reading does to a stream. A fault is reported as it lies ahead and passed over
with its character, except for the last one, which stays. -/
def ReadSpec (s : TokenStream) : EStateM.Result LexicalFault TokenStream (Option Node) → Prop
  | .ok none behind => s.ahead = [] ∧ behind.ahead = [] ∧ behind.Plain
  | .ok (some token) behind =>
      s.ahead = .ok token :: behind.ahead ∧ token.isLeaf = true ∧ behind.Plain
  | .error fault behind =>
      (s.ahead = .error fault :: behind.ahead ∨
        s.ahead = [.error fault] ∧ behind.ahead = [.error fault]) ∧ behind.Plain ∧
        ∀ kind, fault.cause ≠ .compositePushback kind

theorem ReadSpec.fault_first {s behind : TokenStream} {fault : LexicalFault}
    (h : s.ReadSpec (.error fault behind)) : ∃ later, s.ahead = .error fault :: later := by
  rcases h.1 with hpassed | hstays
  · exact ⟨_, hpassed⟩
  · exact ⟨[], hstays.1⟩

theorem scan_spec {s : TokenStream} (hp : s.pending = []) (ho : s.opening = none) :
    s.ReadSpec (scan s) := by
  have hs := Token.scan_spec s.cursor
  unfold scan
  cases h : Token.scan s.cursor with
  | finished behind =>
      rw [h] at hs
      have hnil : behind.readings = [] := Cursor.readings_of_rest_nil hs
      simp [ReadSpec, ahead, scanned, Plain, hp, ho, hnil, Cursor.readings_of_finished h]
  | token token queued behind =>
      rw [h] at hs
      refine ⟨?_, hs.1, ?_⟩
      · simp [ahead, scanned, hp, ho, Cursor.readings_of_token h]
      · simpa [Plain, hp] using hs.2.1
  | unknown character span behind =>
      refine ⟨.inl ?_, by simp [Plain, hp], by simp [fault]⟩
      simp [ahead, scanned, hp, ho, Cursor.readings_of_unknown h, fault, Cursor.fault, line, column]
  | unclosed opening behind =>
      refine ⟨.inr ⟨?_, ?_⟩, by simp [Plain, hp], ?_⟩
      · simp [ahead, scanned, hp, ho, Cursor.readings_of_unclosed h, unclosed, fault,
          Cursor.unclosed, Cursor.fault, line, column, offset]
      · simp [ahead, scanned, hp, unclosed, fault, line, column, offset]
      · intro kind
        cases opening <;> simp [unclosed, fault, Opening.cause]

/-- One reading takes the first thing that lies ahead. -/
theorem read_spec {s : TokenStream} (hs : s.Plain) : s.ReadSpec (read s) := by
  unfold read
  cases hp : s.pending with
  | cons token pending =>
      simp only [Plain, hp, List.mem_cons, forall_eq_or_imp] at hs
      exact ⟨by simp [ahead, scanned, hp, unclosed, fault, line, column, offset], hs.1, hs.2⟩
  | nil =>
      cases ho : s.opening with
      | none => exact scan_spec hp ho
      | some opening =>
          refine ⟨.inr ⟨?_, ?_⟩, hs, ?_⟩
          · simp [ahead, scanned, hp, ho]
          · simp [ahead, scanned, hp, ho]
          · intro kind
            cases opening <;> simp [unclosed, fault, Opening.cause]

/-- A token that is given back lies ahead of everything else. -/
theorem ahead_push (s : TokenStream) (token : Node) :
    ahead { s with pending := token :: s.pending } = .ok token :: s.ahead := by
  simp [ahead, scanned, unclosed, fault, line, column, offset]

theorem plain_push {s : TokenStream} {token : Node} (hs : s.Plain) (ht : token.isLeaf = true) :
    Plain { s with pending := token :: s.pending } := by
  simpa [Plain, ht] using hs

end TokenStream

/-! ### The tokens that lie ahead -/

def tokensIn (readings : List Reading) : List Node := readings.filterMap Except.toOption

@[simp] theorem tokensIn_nil : tokensIn [] = [] := rfl

@[simp] theorem tokensIn_cons_ok (token : Node) (readings : List Reading) :
    tokensIn (.ok token :: readings) = token :: tokensIn readings := rfl

@[simp] theorem tokensIn_cons_error (fault : LexicalFault) (readings : List Reading) :
    tokensIn (.error fault :: readings) = tokensIn readings := rfl

@[simp] theorem tokensIn_append (tokens : List Node) (readings : List Reading) :
    tokensIn (tokens.map .ok ++ readings) = tokens ++ tokensIn readings := by
  induction tokens with
  | nil => rfl
  | cons token tokens ih => simp [ih]

theorem Cursor.length_tokensIn_readings_le (cursor : Cursor) :
    (tokensIn cursor.readings).length ≤ cursor.rest.length := by
  have hs := Token.scan_spec cursor
  fun_induction readings cursor with
  | case1 cursor behind h => simp
  | case2 cursor token queued behind h ih =>
      rw [h] at hs
      have hlt := hs.2.2
      have hb := ih (Token.scan_spec behind)
      simp
      omega
  | case3 cursor character span behind h ih =>
      rw [h] at hs
      have hlt : behind.rest.length < cursor.rest.length := hs
      have hb := ih (Token.scan_spec behind)
      simp
      omega
  | case4 cursor opening behind h => simp

namespace TokenStream

/-- No more tokens lie ahead than the size of a stream says. -/
theorem length_tokensIn_ahead_le (s : TokenStream) : (tokensIn s.ahead).length ≤ s.size := by
  rw [ahead, tokensIn_append, List.length_append, size]
  apply Nat.add_le_add_left
  unfold scanned
  split
  · simp
  · exact s.cursor.length_tokensIn_readings_le

theorem read_failed {s behind : TokenStream} {token : Option Node}
    (h : read s = .ok token behind) : behind.failed = s.failed := by
  unfold read at h
  split at h
  · cases h
    rfl
  · split at h
    · cases h
    · unfold scan at h
      split at h <;> cases h <;> rfl

/-- The tokens up to the first fault, and that fault. -/
def collect : List Reading → List Node × Option LexicalFault
  | [] => ([], none)
  | .error fault :: _ => ([], some fault)
  | .ok token :: later => (token :: (collect later).1, (collect later).2)

theorem drainUpTo_eq_collect {limit : Nat} {s : TokenStream} (hs : s.Plain)
    (hf : s.failed = false) (hl : (tokensIn s.ahead).length < limit) :
    drainUpTo limit s = collect s.ahead := by
  induction limit generalizing s with
  | zero => omega
  | succ limit ih =>
      have hr := read_spec hs
      unfold drainUpTo next
      rw [if_neg (by simp [hf])]
      cases h : read s with
      | error fault behind =>
          rw [h] at hr
          obtain ⟨later, hlater⟩ := hr.fault_first
          simp [hlater, collect]
      | ok found behind =>
          rw [h] at hr
          cases found with
          | none => simp [hr.1, collect]
          | some token =>
              obtain ⟨hahead, -, hplain⟩ := hr
              rw [hahead, tokensIn_cons_ok, List.length_cons] at hl
              have hb := ih hplain ((read_failed h).trans hf) (by omega)
              simp [hahead, collect, hb]

theorem collect_eq_none_iff {readings : List Reading} {tokens : List Node} :
    collect readings = (tokens, none) ↔ readings = tokens.map .ok := by
  induction readings generalizing tokens with
  | nil => cases tokens <;> simp [collect]
  | cons reading later ih =>
      cases reading with
      | error fault => cases tokens <;> simp [collect]
      | ok token =>
          cases tokens with
          | nil => simp [collect]
          | cons head tail =>
              have ht := @ih tail
              rw [Prod.ext_iff] at ht
              simp [collect, Prod.ext_iff, ← ht, and_assoc]

theorem collect_eq_some_iff {readings : List Reading} {fault : LexicalFault} :
    (collect readings).2 = some fault ↔
      ∃ (tokens : List Node) (later : List Reading),
        readings = tokens.map .ok ++ .error fault :: later := by
  induction readings with
  | nil => simp [collect]
  | cons reading others ih =>
      cases reading with
      | error first =>
          refine ⟨fun h => ⟨[], others, by simp_all [collect]⟩, ?_⟩
          rintro ⟨tokens, later, h⟩
          cases tokens <;> simp_all [collect]
      | ok token =>
          rw [collect, ih]
          constructor
          · rintro ⟨tokens, later, rfl⟩
            exact ⟨token :: tokens, later, rfl⟩
          · rintro ⟨tokens, later, h⟩
            cases tokens with
            | nil => simp at h
            | cons head tail => exact ⟨tail, later, (List.cons.inj h).2⟩

theorem drain_ofString (source : String) :
    (ofString source).drain = collect (ofString source).ahead := by
  have hl := (ofString source).length_tokensIn_ahead_le
  exact drainUpTo_eq_collect (plain_ofString source) rfl (Nat.lt_succ_of_le hl)

end TokenStream

/-- A source has tokens exactly if nothing else lies ahead of its stream. -/
theorem tokenize_eq_ok_iff {source : String} {tokens : List Node} :
    tokenize source = .ok tokens ↔ (TokenStream.ofString source).ahead = tokens.map .ok := by
  rw [← TokenStream.collect_eq_none_iff, ← TokenStream.drain_ofString, tokenize]
  cases (TokenStream.ofString source).drain with
  | mk found fault => cases fault <;> simp

/-- A source fails with the first fault that lies ahead of its stream. -/
theorem tokenize_eq_error_iff {source : String} {fault : LexicalFault} :
    tokenize source = .error fault ↔
      ∃ (tokens : List Node) (later : List Reading), (TokenStream.ofString source).ahead =
        tokens.map .ok ++ .error fault :: later := by
  rw [← TokenStream.collect_eq_some_iff, ← TokenStream.drain_ofString, tokenize]
  cases (TokenStream.ofString source).drain with
  | mk found first => cases first <;> simp

end MiniSmalltalk
