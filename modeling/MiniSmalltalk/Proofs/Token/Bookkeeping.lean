import MiniSmalltalk.Proofs.Token.Counting
import MiniSmalltalk.Proofs.Token.Following

/-! # Lines and columns

A scanner answers every call as the token stream does, and both keep to the lines and columns of
their places. Where a scanner has stepped back over a newline the column is off until the newline is
taken again, and no fault is reported in between. -/

namespace MiniSmalltalk

open TokenStream Token

namespace Scanner

variable {m : Scanner}

/-! ### Calls -/

/-- A scanner and a token stream that stand at the same place, with the same tokens given back and
inside the same literal or comment without end, if inside any. -/
structure Mirrors (source : List Char) (m : Scanner) (s : TokenStream) : Prop where
  stands : m.Stands source s.cursor
  pending_eq : m.pending = s.pending
  idle : s.opening = none → m.mode = .start
  inside : ∀ opening ∈ s.opening,
    m.IsInside opening ∧ s.cursor.rest = [] ∧ opening.start ≤ s.cursor.position.offset

/-- A head is not in front of a newline that it has stepped back over. -/
def Exact (head : Head) (rest : List Char) : Prop := head.rewound = false ∨ rest = []

variable {source : List Char} {s : TokenStream}

theorem mirrors_ofString (source : String) :
    Mirrors source.toList (ofString source) (TokenStream.ofString source) :=
  ⟨⟨rfl, ⟨[], rfl, rfl⟩, rfl⟩, rfl, fun _ => rfl, nofun⟩

theorem Stands.drop_eq {cursor : Cursor} (h : m.Stands source cursor) :
    m.head.source.drop m.head.index = cursor.rest := by
  obtain ⟨-, ⟨front, hat⟩, -⟩ := h
  simp [hat.source_eq, hat.index_eq]

/-- The fault of a literal or comment without end is the same each time. -/
theorem fault_of_inside {opening : Opening} {cursor : Cursor} (h : m.Stands source cursor)
    (hinside : m.IsInside opening) (hle : opening.start ≤ cursor.position.offset) :
    m.fault opening.cause = cursor.unclosed opening := by
  have hstart : m.start = opening.start := by
    cases opening <;> exact hinside.2
  have hoffset := congrArg Position.offset h.position_eq
  have hline := congrArg Position.line h.position_eq
  have hcolumn := congrArg Position.column h.position_eq
  rw [← hoffset] at hle
  rw [fault, hstart, Cursor.unclosed, Cursor.fault, ← hline, ← hcolumn, ← hoffset]
  congr 2
  exact Nat.max_eq_left hle

theorem serve_scan (h : Mirrors source m s) (ho : s.opening = none) :
    ∃ n, m.scan .wrapping s.cursor.rest = .ok ((s.conclude (Token.scan s.cursor)).1, n) ∧
      Mirrors source n (s.conclude (Token.scan s.cursor)).2 ∧
      ∀ fault, (s.conclude (Token.scan s.cursor)).1 = .fault fault →
        Exact n.head (s.conclude (Token.scan s.cursor)).2.cursor.rest := by
  obtain ⟨hsource, ⟨front, hat⟩, hposition⟩ := h.stands
  have hfollows := scan_follows hsource hat (h.idle ho)
  rw [hposition] at hfollows
  have hspec := Token.scan_spec s.cursor
  have honward := scan_onward s.cursor
  cases hscan : Token.scan s.cursor with
  | finished behind =>
      rw [hscan] at hfollows
      obtain ⟨n, hresult, hstands, hmode, hpending⟩ := hfollows
      refine ⟨n, hresult, ⟨hstands, hpending.trans h.pending_eq, fun _ => hmode, ?_⟩, ?_⟩ <;>
        simp [conclude, ho]
  | token token queued behind =>
      rw [hscan] at hfollows
      obtain ⟨n, hresult, hstands, hmode, hpending⟩ := hfollows
      rw [h.pending_eq] at hpending
      refine ⟨n, hresult, ⟨hstands, hpending, fun _ => hmode, ?_⟩, ?_⟩ <;>
        simp [conclude, ho]
  | unknown character span behind =>
      rw [hscan] at hfollows
      obtain ⟨n, hresult, hstands, hmode, hpending, hmoved⟩ := hfollows
      refine ⟨n, hresult, ⟨hstands, hpending.trans h.pending_eq, fun _ => hmode, ?_⟩,
        fun _ _ => .inl hmoved⟩
      simp [conclude, ho]
  | unclosed opening behind =>
      rw [hscan] at hfollows hspec honward
      obtain ⟨n, hresult, hstands, hinside, hpending⟩ := hfollows
      obtain ⟨gap, body, -, hcs, -, hstart, hstop⟩ := honward
      refine ⟨n, hresult, ⟨hstands, hpending.trans h.pending_eq, by simp [conclude], ?_⟩,
        fun _ _ => .inr hspec.1⟩
      rintro _ ⟨⟩
      refine ⟨hinside, hspec.1, ?_⟩
      rw [hcs, byteLength_append] at hstop
      simp only [conclude]
      omega

/-- A scanner answers every call as the token stream does. A head that reports a fault has not just
stepped back over a newline. -/
theorem Mirrors.serve (h : Mirrors source m s) (call : Call) :
    ∃ n, m.serve .wrapping call = .ok ((s.serve call).1, n) ∧ Mirrors source n (s.serve call).2 ∧
      ∀ fault, call = .read → (s.serve call).1 = .fault fault →
        Exact n.head (s.serve call).2.cursor.rest := by
  cases call with
  | read =>
      cases hp : s.pending with
      | cons token pending =>
          have hm : m.pending = token :: pending := h.pending_eq.trans hp
          rw [serve_read_of_pending hp]
          refine ⟨{ m with pending }, by rw [Scanner.serve, hm], ?_, by simp⟩
          exact ⟨⟨h.stands.source_eq, h.stands.between, h.stands.position_eq⟩, rfl, h.idle,
            h.inside⟩
      | nil =>
          have hm : m.serve .wrapping .read = m.scan .wrapping s.cursor.rest := by
            rw [Scanner.serve, h.pending_eq, hp, h.stands.drop_eq]
          rw [hm]
          cases ho : s.opening with
          | none =>
              rw [serve_read_of_scan hp ho]
              obtain ⟨n, hresult, hmirrors, hexact⟩ := serve_scan h ho
              exact ⟨n, hresult, hmirrors, fun fault _ => hexact fault⟩
          | some opening =>
              obtain ⟨hinside, hrest, hle⟩ := h.inside opening ho
              rw [serve_read_of_opening hp ho, hrest, scan_nil_of_isInside hinside,
                fault_of_inside h.stands hinside hle]
              exact ⟨m, rfl, h, fun _ _ _ => .inr rfl⟩
  | unread token =>
      have hline := congrArg Position.line h.stands.position_eq
      have hcolumn := congrArg Position.column h.stands.position_eq
      cases token with
      | none => exact ⟨m, rfl, h, by simp⟩
      | some token =>
          cases hleaf : token.isLeaf with
          | true =>
              simp only [TokenStream.serve, unread_some_of_isLeaf hleaf, Scanner.serve, hleaf]
              refine ⟨{ m with pending := token :: m.pending }, rfl, ⟨?_, ?_, h.idle, h.inside⟩,
                by simp⟩
              · exact ⟨h.stands.source_eq, h.stands.between, h.stands.position_eq⟩
              · exact congrArg (token :: ·) h.pending_eq
          | false =>
              simp only [TokenStream.serve, unread_some_of_not_isLeaf hleaf, Scanner.serve, hleaf]
              refine ⟨m, ?_, h, by simp⟩
              simp only [replied, TokenStream.fault, TokenStream.line, TokenStream.column]
              rw [← hline, ← hcolumn]
              rfl

/-- A scanner answers all calls as the token stream does. -/
theorem Mirrors.run (h : Mirrors source m s) (calls : List Call) :
    ∃ n, m.run .wrapping calls = .ok ((s.answers calls).map Prod.fst, n) ∧
      Mirrors source n (s.after calls) := by
  induction calls generalizing m s with
  | nil => exact ⟨m, rfl, h⟩
  | cons call calls ih =>
      obtain ⟨n, hserve, hmirrors, -⟩ := h.serve call
      obtain ⟨last, hrun, hlast⟩ := ih hmirrors
      refine ⟨last, ?_, hlast⟩
      simp [Scanner.run, hserve, hrun, TokenStream.answers]

/-- A scanner and a token stream at the same place agree on what lies behind them. -/
theorem Mirrors.accounted {arithmetic : Arithmetic} {source : List Char} {s : TokenStream}
    (h : Mirrors source m s) (hcounts : m.head.Counts arithmetic source) :
    ∃ front, m.head.Accounted arithmetic front s.cursor.rest := by
  obtain ⟨-, ⟨front, hat⟩, -⟩ := h.stands
  obtain ⟨-, front', rest, ha⟩ := hcounts
  have hlength : front'.length = front.length := ha.between.index_eq.symm.trans hat.index_eq
  obtain ⟨rfl, rfl⟩ := List.append_inj (ha.between.source_eq.symm.trans hat.source_eq) hlength
  exact ⟨front', ha⟩

/-- What a scanner has come to after any calls, unless a count would have left its range. -/
theorem mirrors_after (arithmetic : Arithmetic) (source : String) (calls : List Call) :
    ((ofString source).run arithmetic calls = .error .above ∧ arithmetic = .checked ∧
      UInt32.size ≤ byteLength source.toList + 1) ∨
    ∃ m, (ofString source).run arithmetic calls =
        .ok (((TokenStream.ofString source).answers calls).map Prod.fst, m) ∧
      Mirrors source.toList m ((TokenStream.ofString source).after calls) ∧
      m.head.Counts arithmetic source.toList := by
  obtain ⟨m, hrun, hmirrors⟩ := (mirrors_ofString source).run calls
  obtain hsame | hover := run_agrees (counts_ofString arithmetic source) calls
  · rw [hrun] at hsame
    exact .inr ⟨m, hsame, hmirrors, run_counts (counts_ofString arithmetic source) hsame⟩
  · exact .inl hover

end Scanner

/-! ### Streams -/

/-- A stream has come to the end of the first characters of a source, and has counted them and
their bytes. -/
structure TokenStream.Behind (source : String) (front : List Char) (s : TokenStream) : Prop where
  source_eq : source.toList = front ++ s.cursor.rest
  index_eq : s.cursor.position.index = front.length
  offset_eq : s.offset = byteLength front

theorem Scanner.Mirrors.behind {arithmetic : Arithmetic} {source : String} {m : Scanner}
    {s : TokenStream} {front : List Char} (h : Mirrors source.toList m s)
    (ha : m.head.Accounted arithmetic front s.cursor.rest) : s.Behind source front := by
  have hposition := h.stands.position_eq
  refine ⟨?_, ?_, ?_⟩
  · rw [← h.stands.source_eq]
    exact ha.between.source_eq
  · rw [← hposition]
    exact ha.between.index_eq
  · rw [TokenStream.offset, ← hposition]
    exact ha.between.offsetOf_eq

theorem TokenStream.behind_after (source : String) (calls : List Call) :
    ∃ front, ((ofString source).after calls).Behind source front := by
  obtain ⟨-, hchecked, -⟩ | ⟨m, -, hmirrors, hcounts⟩ :=
    Scanner.mirrors_after .wrapping source calls
  · exact nomatch hchecked
  · obtain ⟨front, ha⟩ := hmirrors.accounted hcounts
    exact ⟨front, hmirrors.behind ha⟩

/-- What a reading can come to, and the stream that it leaves. A character that begins no token is
passed over, and in a literal or comment without end a stream stays. -/
inductive TokenStream.Served (s : TokenStream) : Answer → TokenStream → Prop where
  | pending {token : Node} {pending : List Node} :
      s.pending = token :: pending → Served s (.found (some token)) { s with pending }
  | finished {cursor : Cursor} :
      s.pending = [] → s.opening = none → Token.scan s.cursor = .finished cursor →
      Served s (.found none) { s with cursor }
  | token {token : Node} {queued : Option Node} {cursor : Cursor} :
      s.pending = [] → s.opening = none → Token.scan s.cursor = .token token queued cursor →
      Served s (.found (some token)) { s with cursor, pending := queued.toList ++ s.pending }
  | unknown {character : Char} {span : Span} {cursor : Cursor} :
      s.pending = [] → s.opening = none → Token.scan s.cursor = .unknown character span cursor →
      Served s (.fault (cursor.fault (.unknownCharacter character) span)) { s with cursor }
  | unclosed {opening : Opening} {cursor : Cursor} :
      s.pending = [] → s.opening = none → Token.scan s.cursor = .unclosed opening cursor →
      Served s (.fault (cursor.unclosed opening)) { s with cursor, opening := some opening }
  | again {opening : Opening} :
      s.pending = [] → s.opening = some opening →
      Served s (.fault (s.cursor.unclosed opening)) s

theorem TokenStream.serve_read_served (s : TokenStream) :
    s.Served (s.serve .read).1 (s.serve .read).2 := by
  cases hp : s.pending with
  | cons token pending =>
      rw [serve_read_of_pending hp]
      exact .pending hp
  | nil =>
      cases ho : s.opening with
      | some opening =>
          rw [serve_read_of_opening hp ho]
          exact .again hp ho
      | none =>
          rw [serve_read_of_scan hp ho]
          cases hscan : Token.scan s.cursor with
          | finished cursor => exact .finished hp ho hscan
          | token token queued cursor => exact .token hp ho hscan
          | unknown character span cursor => exact .unknown hp ho hscan
          | unclosed opening cursor => exact .unclosed hp ho hscan

/-- A fault is reported where reading has come to. -/
theorem TokenStream.Served.place {s behind : TokenStream} {fault : LexicalFault}
    (h : s.Served (.fault fault) behind) :
    fault.line = behind.line ∧ fault.column = behind.column ∧
      fault.span.stop = behind.offset := by
  cases h with
  | unknown hp ho hscan =>
      have honward := scan_onward s.cursor
      rw [hscan] at honward
      obtain ⟨gap, -, -, -, -, hstop⟩ := honward
      exact ⟨rfl, rfl, hstop.symm⟩
  | unclosed hp ho hscan => exact ⟨rfl, rfl, rfl⟩
  | again hp ho => exact ⟨rfl, rfl, rfl⟩

theorem TokenStream.serve_read_eq_fault_iff {s behind : TokenStream} {fault : LexicalFault} :
    s.serve .read = (.fault fault, behind) ↔ read s = .error fault behind := by
  rw [serve]
  cases read s <;> simp [replied]

/-- A fault that is reported behind the first characters of a source, with their counts. -/
structure LexicalFault.Placed (arithmetic : Arithmetic) (source : String) (front : List Char)
    (fault : LexicalFault) (behind : TokenStream) : Prop where
  place : behind.Behind source front
  stop_eq : fault.span.stop = byteLength front
  line_eq : fault.line = behind.line
  column_eq : fault.column = behind.column
  line_right : fault.line = .ofNat (lineBehind front)
  column_right : fault.column = .ofNat (columnBehind front)
  fits : arithmetic = .checked →
    lineBehind front < UInt32.size ∧ columnBehind front < UInt32.size

/-- A fault is reported with the counts of the head, which are right. -/
theorem Scanner.Mirrors.placed {arithmetic : Arithmetic} {source : String} {m n : Scanner}
    {s : TokenStream} {fault : LexicalFault} (h : Mirrors source.toList m s)
    (hcounts : m.head.Counts arithmetic source.toList)
    (hserve : m.serve arithmetic .read = .ok (.fault fault, n)) :
    ∃ behind front, read s = .error fault behind ∧
      fault.Placed arithmetic source front behind := by
  obtain ⟨last, hlast, hmirrors, hexact⟩ := h.serve .read
  have hagrees := serve_agrees hcounts .read
  rw [hserve, hlast] at hagrees
  obtain hsame | ⟨hover, -⟩ := hagrees
  · obtain ⟨hanswer, rfl⟩ := Prod.mk.inj (Except.ok.inj hsame)
    obtain ⟨behind, hread⟩ : ∃ behind, s.serve .read = (.fault fault, behind) :=
      ⟨_, Prod.ext hanswer.symm rfl⟩
    have hserved := serve_read_served s
    rw [hread] at hmirrors hexact hserved
    obtain ⟨front, ha⟩ := hmirrors.accounted (serve_counts hcounts hserve)
    obtain ⟨hline, hcolumn, hstop⟩ := hserved.place
    have hbehind := hmirrors.behind ha
    have hposition := hmirrors.stands.position_eq
    refine ⟨behind, front, serve_read_eq_fault_iff.mp hread,
      ⟨hbehind, hstop.trans hbehind.offset_eq, hline, hcolumn, ?_, ?_, ha.fits⟩⟩
    · rw [hline, TokenStream.line, ← hposition]
      exact ha.line_eq
    · rw [hcolumn, TokenStream.column, ← hposition]
      refine ha.column_eq.trans (if_neg ?_)
      -- A head that has just stepped back over a newline would be neither at the end nor unturned.
      rintro ⟨hrewound, hnewline⟩
      obtain hmoved | hend := hexact fault rfl rfl
      · simp [hmoved] at hrewound
      · simp only at hend hnewline
        simp [hend] at hnewline
  · cases hover

/-- The line and column of a fault are those of the end of its span. -/
theorem placed_of_fault {source : String} {calls : List Call} {fault : LexicalFault}
    {behind : TokenStream} (h : read ((ofString source).after calls) = .error fault behind) :
    ∃ front, fault.Placed .wrapping source front behind := by
  obtain ⟨-, hchecked, -⟩ | ⟨m, -, hmirrors, hcounts⟩ :=
    Scanner.mirrors_after .wrapping source calls
  · exact nomatch hchecked
  · obtain ⟨n, hserve, -⟩ := hmirrors.serve .read
    rw [serve_read_eq_fault_iff.mpr h] at hserve
    obtain ⟨_, front, hread, hplaced⟩ := hmirrors.placed hcounts hserve
    obtain ⟨-, rfl⟩ := EStateM.Result.error.inj (h.symm.trans hread)
    exact ⟨front, hplaced⟩

/-- A count of 32 bits for a number. It is the number itself if it is checked, and if the source is
too short for a count to begin anew. -/
structure Tally (arithmetic : Arithmetic) (source : String) (count : UInt32) (number : Nat) :
    Prop where
  eq_ofNat : count = .ofNat number
  exact : arithmetic = .checked ∨ source.utf8ByteSize + 1 < UInt32.size → (count : Nat) = number

namespace TokenStream.Behind

variable {arithmetic : Arithmetic} {source : String} {front : List Char} {s : TokenStream}

theorem byteLength_le (h : s.Behind source front) : byteLength front ≤ source.utf8ByteSize := by
  rw [← byteLength_toList, h.source_eq, byteLength_append]
  exact Nat.le_add_right _ _

/-- No more can be counted than there are bytes, counting from one. -/
theorem tally {count : UInt32} {number : Nat} (h : s.Behind source front)
    (heq : count = .ofNat number) (hle : number ≤ byteLength front + 1)
    (hfits : arithmetic = .checked → number < UInt32.size) :
    Tally arithmetic source count number := by
  subst heq
  refine ⟨rfl, fun hroom => UInt32.toNat_ofNat_of_lt' ?_⟩
  obtain hchecked | hshort := hroom
  · exact hfits hchecked
  · exact Nat.lt_of_le_of_lt (Nat.le_trans hle (Nat.add_le_add_right h.byteLength_le 1)) hshort

end TokenStream.Behind

end MiniSmalltalk
