import MiniSmalltalk.Proofs.Token.Scanner
import MiniSmalltalk.Proofs.Token.Spelling

/-! # Counting lines and columns

The line and the column of a place are one more than the newlines in front of it and the characters
behind the last of them. A scanner keeps to these counts in 32 bits, whatever it is asked for. Where
it has stepped back over a newline the column is off until the newline is taken again.

In a source of fewer than 2 ^ 32 bytes there is room for all counts but those behind the last
character, which may come to 2 ^ 32. With checks, taking that character is an overrun. Nothing else
is: what is decreased has always been increased before. -/

namespace MiniSmalltalk

open TokenStream Token

/-! ### Numbers -/

def lineBehind (front : List Char) : Nat := 1 + front.count '\n'

/-- The column behind some characters: those behind the last newline count. -/
def columnBehind (front : List Char) : Nat := 1 + (front.reverse.takeWhile (· != '\n')).length

theorem lineBehind_concat (front : List Char) (c : Char) :
    lineBehind (front ++ [c]) = if c = '\n' then lineBehind front + 1 else lineBehind front := by
  by_cases hc : c = '\n' <;> simp [lineBehind, hc, Nat.add_assoc]

theorem columnBehind_concat (front : List Char) (c : Char) :
    columnBehind (front ++ [c]) = if c = '\n' then 1 else columnBehind front + 1 := by
  by_cases hc : c = '\n' <;> simp [columnBehind, hc, Nat.add_assoc]

theorem length_le_byteLength (cs : List Char) : cs.length ≤ byteLength cs := by
  induction cs with
  | nil => exact Nat.le_refl 0
  | cons c cs ih =>
      have hpos := c.utf8Size_pos
      simp only [List.length_cons, byteLength_cons]
      omega

theorem lineBehind_le (front : List Char) : lineBehind front ≤ byteLength front + 1 := by
  have hcount := @List.count_le_length _ _ '\n' front
  have hlength := length_le_byteLength front
  rw [lineBehind]
  omega

theorem columnBehind_le (front : List Char) : columnBehind front ≤ byteLength front + 1 := by
  have hcount := (List.takeWhile_prefix (l := front.reverse) (· != '\n')).length_le
  have hlength := length_le_byteLength front
  rw [List.length_reverse] at hcount
  rw [columnBehind]
  omega

/-- There is room above a count unless the number behind it is 2 ^ 32. -/
theorem Arithmetic.hasRoom_ofNat_iff {arithmetic : Arithmetic} {number : Nat}
    (h : number < UInt32.size) :
    arithmetic.HasRoom (.ofNat number) ↔ (arithmetic = .checked → number + 1 < UInt32.size) := by
  have hnext : UInt32.ofNat number + 1 = 0 ↔ number + 1 = UInt32.size := by
    rw [← UInt32.toNat_inj]
    simp only [UInt32.size] at *
    simp
    omega
  refine forall_congr' fun _ => ?_
  rw [ne_eq, hnext]
  omega

/-! ### Heads -/

/-- A head between two parts of a source, with the counts of the first. The column is the index
instead if the head has stepped back over a newline. If it is checked, no count has begun anew. -/
structure Head.Accounted (arithmetic : Arithmetic) (head : Head) (front rest : List Char) :
    Prop where
  between : head.At front rest
  line_eq : head.line = .ofNat (lineBehind front)
  column_eq : head.column =
    if head.rewound = true ∧ rest.head? = some '\n' then .ofNat head.index
    else .ofNat (columnBehind front)
  fits : arithmetic = .checked →
    lineBehind front < UInt32.size ∧ columnBehind front < UInt32.size

namespace Head.Accounted

variable {arithmetic : Arithmetic} {head : Head} {front rest : List Char} {c : Char}

theorem column_of_ne (h : head.Accounted arithmetic front (c :: rest)) (hc : c ≠ '\n') :
    head.column = .ofNat (columnBehind front) := by
  rw [h.column_eq, if_neg]
  rintro ⟨-, hnext⟩
  exact hc (Option.some.inj hnext)

/-- Taking a character restores the column. -/
theorem take (h : head.Accounted arithmetic front (c :: rest))
    (hroom : arithmetic.HasRoom (head.counted c)) :
    (head.take c).Accounted arithmetic (front ++ [c]) rest := by
  refine ⟨h.between.take, ?_, ?_, fun hchecked => ?_⟩
  · rw [lineBehind_concat]
    by_cases hc : c = '\n' <;> simp [Head.take, hc, h.line_eq, UInt32.ofNat_add]
  · rw [if_neg (by simp [Head.take]), columnBehind_concat]
    by_cases hc : c = '\n'
    · simp [Head.take, hc]
    · simp [Head.take, hc, h.column_of_ne hc, UInt32.ofNat_add]
  · obtain ⟨hline, hcolumn⟩ := h.fits hchecked
    rw [lineBehind_concat, columnBehind_concat]
    by_cases hc : c = '\n'
    · rw [counted, if_pos hc, h.line_eq, Arithmetic.hasRoom_ofNat_iff hline] at hroom
      rw [if_pos hc, if_pos hc]
      exact ⟨hroom hchecked, by decide⟩
    · rw [counted, if_neg hc, h.column_of_ne hc, Arithmetic.hasRoom_ofNat_iff hcolumn] at hroom
      rw [if_neg hc, if_neg hc]
      exact ⟨hline, hroom hchecked⟩

theorem turned (h : head.Accounted arithmetic front (c :: rest)) :
    (head.turned (c :: rest)).Accounted arithmetic front (c :: rest) := by
  refine ⟨h.between.turned, h.line_eq, ?_, h.fits⟩
  by_cases hc : c = '\n'
  · simp [Head.turned, hc]
  · simp [Head.turned, hc, h.column_of_ne hc]

/-- Where there is no room for the count of one more character, the source is as long as sources
can be. -/
theorem size_le_of_not_hasRoom (h : head.Accounted arithmetic front (c :: rest))
    (hroom : ¬ arithmetic.HasRoom (head.counted c)) :
    arithmetic = .checked ∧ UInt32.size ≤ byteLength head.source + 1 := by
  obtain ⟨hchecked, -⟩ := Classical.not_imp.mp hroom
  obtain ⟨hline, hcolumn⟩ := h.fits hchecked
  refine ⟨hchecked, ?_⟩
  have hlines := lineBehind_le front
  have hcolumns := columnBehind_le front
  have hpos := c.utf8Size_pos
  rw [h.between.source_eq, byteLength_append, byteLength_cons]
  by_cases hc : c = '\n'
  · rw [counted, if_pos hc, h.line_eq, Arithmetic.hasRoom_ofNat_iff hline] at hroom
    have hfull := hroom ∘ fun hlt _ => hlt
    omega
  · rw [counted, if_neg hc, h.column_of_ne hc, Arithmetic.hasRoom_ofNat_iff hcolumn] at hroom
    have hfull := hroom ∘ fun hlt _ => hlt
    omega

end Head.Accounted

/-- A head somewhere in a source, with the counts of what lies in front of it. -/
def Head.Counts (arithmetic : Arithmetic) (source : List Char) (head : Head) : Prop :=
  head.source = source ∧ ∃ front rest, head.Accounted arithmetic front rest

/-! ### Moves -/

/-- Where a move leaves the head: where it was, or one step back if it had taken a character. -/
def Move.Keeps (arithmetic : Arithmetic) (head : Head) (atEnd : Bool) : Move → Prop
  | .onward n => n.head = head
  | .done (_, n) => n.head = head ∨ (atEnd = false ∧ head.back arithmetic = .ok n.head)

theorem Move.Keeps.ite {arithmetic : Arithmetic} {head : Head} {atEnd : Bool} {test : Prop}
    [Decidable test] {yes no : Move} (hy : yes.Keeps arithmetic head atEnd)
    (hn : no.Keeps arithmetic head atEnd) :
    (if test then yes else no).Keeps arithmetic head atEnd := by
  split
  · exact hy
  · exact hn

namespace Scanner

variable {arithmetic : Arithmetic} {m n : Scanner} {head : Head} {atEnd : Bool}
  {front rest source : List Char} {c : Char}

/-- Where a step leaves the head, if there is one. -/
def Kept (arithmetic : Arithmetic) (head : Head) (atEnd : Bool) (step : Except Overrun Move) :
    Prop :=
  ∀ move, step = .ok move → move.Keeps arithmetic head atEnd

theorem kept_ok {move : Move} (h : move.Keeps arithmetic head atEnd) :
    Kept arithmetic head atEnd (.ok move) := by
  rintro _ ⟨⟩
  exact h

theorem Kept.ite {test : Prop} [Decidable test] {yes no : Except Overrun Move}
    (hy : Kept arithmetic head atEnd yes) (hn : Kept arithmetic head atEnd no) :
    Kept arithmetic head atEnd (if test then yes else no) := by
  split
  · exact hy
  · exact hn

theorem kept_reject (m : Scanner) (atEnd : Bool) {finish : Scanner → Answer × Scanner}
    (hfinish : ∀ n, (finish n).2.head = n.head) :
    Kept arithmetic m.head atEnd
      ((m.reject arithmetic atEnd).map fun n => .done (finish n)) := by
  intro move hmove
  obtain ⟨n, hreject, rfl⟩ := map_eq_ok_iff.mp hmove
  rw [Move.Keeps, hfinish]
  cases atEnd with
  | true =>
      obtain rfl : m = n := Except.ok.inj hreject
      exact .inl rfl
  | false =>
      obtain ⟨head, hback, rfl⟩ := map_eq_ok_iff.mp hreject
      exact .inr ⟨rfl, hback⟩

theorem dispatch_keeps (m : Scanner) (c : Char) :
    (m.dispatch c).Keeps arithmetic m.head atEnd := by
  unfold dispatch
  iterate 7 refine .ite (.inl rfl) ?_
  exact .ite rfl (.ite rfl (.ite (.inl rfl) (.ite rfl (.ite rfl (.inl rfl)))))

/-- A step moves the head by no more than one step back. -/
theorem step_kept (m : Scanner) (c : Char) (atEnd : Bool) :
    Kept arithmetic m.head atEnd (m.step arithmetic c atEnd) := by
  obtain ⟨head, mode, text, start, mark, pending⟩ := m
  cases mode with
  | start =>
      exact .ite (kept_ok (.ite (.inl rfl) rfl))
        (.ite (kept_ok rfl) (kept_ok (dispatch_keeps _ c)))
  | identifier =>
      refine .ite (kept_ok rfl) (.ite ?_ (kept_reject _ atEnd fun _ => rfl))
      intro move hmove
      obtain ⟨index, -, rfl⟩ := map_eq_ok_iff.mp hmove
      exact rfl
  | keyword => exact .ite (kept_ok (.inl rfl)) (kept_reject _ atEnd fun _ => rfl)
  | string => exact .ite (kept_ok rfl) (.ite (kept_ok (.inl rfl)) (kept_ok rfl))
  | quote => exact .ite (kept_ok rfl) (kept_reject _ atEnd fun _ => rfl)
  | comment => exact .ite (kept_ok rfl) (.ite (kept_ok (.inl rfl)) (kept_ok rfl))
  | integer => exact .ite (kept_ok rfl) (kept_reject _ atEnd fun _ => rfl)
  | colon => exact .ite (kept_ok (.inl rfl)) (kept_reject _ atEnd fun _ => rfl)

/-- Checks concern a step only where it steps back. -/
theorem step_eq_of_back_eq
    (h : atEnd = false → m.head.back arithmetic = m.head.back .wrapping) :
    m.step arithmetic c atEnd = m.step .wrapping c atEnd := by
  have hreject : ∀ n : Scanner, n.head = m.head →
      n.reject arithmetic atEnd = n.reject .wrapping atEnd := by
    intro n hn
    cases atEnd with
    | true => rfl
    | false => rw [reject, reject, hn, h rfl]
  unfold step
  cases m.mode <;> simp only [hreject]

theorem advance_of_hasRoom (h : arithmetic.HasRoom (m.head.counted c)) :
    m.advance arithmetic c = .ok (m.take c) := by
  rw [advance, Head.advance_of_hasRoom h]
  rfl

theorem advance_of_not_hasRoom (h : ¬ arithmetic.HasRoom (m.head.counted c)) :
    m.advance arithmetic c = .error .above := by
  rw [advance, Head.advance_of_not_hasRoom h]
  rfl

/-! ### Calls -/

theorem scan_counts {answer : Answer} (h : m.head.Accounted arithmetic front rest)
    (hscan : m.scan arithmetic rest = .ok (answer, n)) :
    n.head.Counts arithmetic m.head.source := by
  induction rest generalizing m front with
  | nil =>
      obtain ⟨move, hstep, hmove⟩ := map_eq_ok_iff.mp hscan
      have hkeeps := step_kept _ _ _ move hstep
      cases move with
      | onward last =>
          obtain ⟨-, rfl⟩ := Prod.mk.inj hmove
          exact ⟨congrArg Head.source hkeeps, front, [], hkeeps ▸ h⟩
      | done result =>
          obtain rfl : result = (answer, n) := hmove
          obtain hhead | ⟨hfalse, -⟩ := hkeeps
          · exact ⟨congrArg Head.source hhead, front, [], hhead ▸ h⟩
          · exact absurd hfalse (by decide)
  | cons c rest ih =>
      by_cases hroom : arithmetic.HasRoom (m.head.counted c)
      · rw [scan, advance_of_hasRoom hroom, ok_bind] at hscan
        obtain ⟨move, hstep, hmove⟩ := bind_eq_ok_iff.mp hscan
        have hkeeps := step_kept _ _ _ move hstep
        cases move with
        | onward next =>
            have hnext : next.head = m.head.take c := hkeeps
            have hcounts := ih (hnext ▸ h.take hroom) hmove
            rw [hnext] at hcounts
            exact hcounts
        | done result =>
            obtain rfl : result = (answer, n) := Except.ok.inj hmove
            obtain hhead | ⟨-, hback⟩ := hkeeps
            · have htake : n.head = m.head.take c := hhead
              exact ⟨by rw [htake]; rfl, _, _, htake ▸ h.take hroom⟩
            · obtain hturned : m.head.turned (c :: rest) = n.head :=
                Except.ok.inj ((h.between.back_take hroom).symm.trans hback)
              exact ⟨by rw [← hturned]; rfl, _, _, hturned ▸ h.turned⟩
      · rw [scan, advance_of_not_hasRoom hroom] at hscan
        cases hscan

theorem drop_of_at (h : m.head.At front rest) : m.head.source.drop m.head.index = rest := by
  simp [h.source_eq, h.index_eq]

/-- No call upsets the counts. -/
theorem serve_counts {answer : Answer} {call : Call} (h : m.head.Counts arithmetic source)
    (hserve : m.serve arithmetic call = .ok (answer, n)) : n.head.Counts arithmetic source := by
  cases call with
  | read =>
      rw [Scanner.serve] at hserve
      split at hserve
      · obtain ⟨-, rfl⟩ := Prod.mk.inj (Except.ok.inj hserve)
        exact h
      · obtain ⟨rfl, front, rest, ha⟩ := h
        rw [drop_of_at ha.between] at hserve
        exact scan_counts ha hserve
  | unread token =>
      cases token with
      | none =>
          obtain ⟨-, rfl⟩ := Prod.mk.inj (Except.ok.inj hserve)
          exact h
      | some token =>
          rw [Scanner.serve] at hserve
          split at hserve
          all_goals
            obtain ⟨-, rfl⟩ := Prod.mk.inj (Except.ok.inj hserve)
            exact h

theorem run_counts {calls : List Call} {answers : List Answer}
    (h : m.head.Counts arithmetic source) (hrun : m.run arithmetic calls = .ok (answers, n)) :
    n.head.Counts arithmetic source := by
  induction calls generalizing m answers with
  | nil =>
      obtain ⟨-, rfl⟩ := Prod.mk.inj (Except.ok.inj hrun)
      exact h
  | cons call calls ih =>
      obtain ⟨⟨answer, next⟩, hserve, hnext⟩ := bind_eq_ok_iff.mp hrun
      obtain ⟨⟨later, last⟩, hlater, hlast⟩ := bind_eq_ok_iff.mp hnext
      obtain ⟨-, rfl⟩ := Prod.mk.inj (Except.ok.inj hlast)
      exact ih (serve_counts h hserve) hlater

theorem counts_ofString (arithmetic : Arithmetic) (source : String) :
    (ofString source).head.Counts arithmetic source.toList := by
  refine ⟨rfl, [], source.toList, ⟨rfl, rfl⟩, rfl, rfl, fun _ => ?_⟩
  exact ⟨by decide, by decide⟩

/-! ### Checks -/

/-- A run comes to what the one without checks comes to, or it is checked and a count would have
left its range upwards. That needs a source of 2 ^ 32 - 1 bytes at least. -/
def Agrees {α : Type} (arithmetic : Arithmetic) (source : List Char)
    (run wrapped : Except Overrun α) : Prop :=
  run = wrapped ∨
    (run = .error .above ∧ arithmetic = .checked ∧ UInt32.size ≤ byteLength source + 1)

theorem Agrees.bind {α β : Type} {run wrapped : Except Overrun α}
    {next after : α → Except Overrun β} (h : Agrees arithmetic source run wrapped)
    (hnext : ∀ result, run = .ok result →
      Agrees arithmetic source (next result) (after result)) :
    Agrees arithmetic source (run >>= next) (wrapped >>= after) := by
  obtain rfl | ⟨rfl, hfull⟩ := h
  · cases run with
    | error overrun => exact .inl rfl
    | ok result => exact hnext result rfl
  · exact .inr ⟨rfl, hfull⟩

theorem scan_agrees (h : m.head.Accounted arithmetic front rest) :
    Agrees arithmetic m.head.source (m.scan arithmetic rest) (m.scan .wrapping rest) := by
  induction rest generalizing m front with
  | nil =>
      left
      rw [scan, scan, step_eq_of_back_eq]
      exact fun h => absurd h (by decide)
  | cons c rest ih =>
      by_cases hroom : arithmetic.HasRoom (m.head.counted c)
      · have hstep : (m.take c).step arithmetic c false = (m.take c).step .wrapping c false :=
          step_eq_of_back_eq fun _ => (h.between.back_take hroom).trans
            (h.between.back_take Arithmetic.hasRoom_wrapping).symm
        rw [scan, scan, advance_of_hasRoom hroom, advance_wrapping, ok_bind, ok_bind, hstep]
        refine .bind (.inl rfl) fun move hmove => ?_
        cases move with
        | onward next =>
            have hnext : next.head = m.head.take c := step_kept _ _ _ _ hmove
            have hagrees := ih (hnext ▸ h.take hroom)
            rw [hnext] at hagrees
            exact hagrees
        | done result => exact .inl rfl
      · rw [scan, advance_of_not_hasRoom hroom]
        exact .inr ⟨rfl, h.size_le_of_not_hasRoom hroom⟩

theorem serve_agrees (h : m.head.Counts arithmetic source) (call : Call) :
    Agrees arithmetic source (m.serve arithmetic call) (m.serve .wrapping call) := by
  cases call with
  | read =>
      obtain ⟨rfl, front, rest, ha⟩ := h
      rw [Scanner.serve, Scanner.serve, drop_of_at ha.between]
      split
      · exact .inl rfl
      · exact scan_agrees ha
  | unread token => cases token <;> exact .inl rfl

/-- Checks change nothing unless a count would leave its range. -/
theorem run_agrees (h : m.head.Counts arithmetic source) (calls : List Call) :
    Agrees arithmetic source (m.run arithmetic calls) (m.run .wrapping calls) := by
  induction calls generalizing m with
  | nil => exact .inl rfl
  | cons call calls ih =>
      rw [Scanner.run, Scanner.run]
      refine (serve_agrees h call).bind fun result hserve => ?_
      exact (ih (serve_counts h hserve)).bind fun _ _ => .inl rfl

end Scanner

end MiniSmalltalk
