import MiniSmalltalk.Proofs.Evaluation.Parentheses
import MiniSmalltalk.Proofs.Session.Batch

/-! # Parentheses in sources

Parentheses may be put around the receiver of an expression and some messages of the first run.
Nobody can tell the difference who does not look at positions, unless what is in them is nil. -/

namespace MiniSmalltalk

open Eval Grammar

/-! ### Sources and trees -/

section

variable {file : SourceFile} {tree laid : Node} {frame : FrameId} {machine : Machine}
  (hp : parseProgram file.text = .ok ⟨some laid, []⟩) (hl : laid.placeless = tree.placeless)

include hp hl

/-- What the interpretation of a source concludes, any tree that is the same comes to. -/
theorem comesTo_of_interprets {step : Interpretation} (h : Interprets file frame machine step) :
    ∃ result own, step = .conclude file own ∧ tree.ComesTo frame machine.quiet result ∧
      View.anywhere.result View.anywhere.value own =
        View.anywhere.result View.anywhere.value result := by
  obtain ⟨own, hown, rfl⟩ := (interprets_iff hp).mp h
  obtain ⟨result, hresult, heq⟩ := yields_alike hl.symm hown
  exact ⟨result, own, rfl, hresult, heq.symm⟩

theorem exists_interprets_iff :
    (∃ step, Interprets file frame machine step) ↔
      ∃ result, tree.ComesTo frame machine.quiet result := by
  constructor
  · rintro ⟨step, h⟩
    obtain ⟨result, -, -, hresult, -⟩ := comesTo_of_interprets hp hl h
    exact ⟨result, hresult⟩
  · rintro ⟨result, hresult⟩
    obtain ⟨own, hown, -⟩ := yields_alike hl hresult
    exact ⟨_, (interprets_iff hp).mpr ⟨own, hown, rfl⟩⟩

end

/-- Parentheses around the front of an expression change nothing but positions, as long as the
front is not nil. If it is nil, the expression with parentheses refuses it. The one without fails
at the next message, has nil as its value if there is none, and refuses a receiver that is nil. -/
theorem parentheses_are_transparent (chain : Chain) (hc : chain.Parses) (file file' : SourceFile)
    (tokens tokens' : List Node)
    (ht : tokenize file.text = .ok tokens) (ha : Alike chain.written tokens)
    (ht' : tokenize file'.text = .ok tokens') (ha' : Alike chain.parenthesised tokens')
    (frame : FrameId) (machine : Machine) :
    (∃ tree, parseProgram file'.text = .ok ⟨some tree, []⟩) ∧
    ((∃ step, Interprets file frame machine step) ↔
      ∃ step, Interprets file' frame machine step) ∧
    ∀ step step', Interprets file frame machine step → Interprets file' frame machine step' →
      ((∀ behind, ¬ chain.front.ComesTo frame machine.quiet (.ok .nil behind)) →
        step.Alike step') ∧
      ∀ behind, chain.front.ComesTo frame machine.quiet (.ok .nil behind) →
        (Interpretation.conclude file (chain.onNil behind)).Alike step ∧
          (Interpretation.conclude file' (chain.refused behind)).Alike step' := by
  obtain ⟨laid, hl, hp⟩ := parseProgram_of_alike ht ha hc.tree_derivation
  obtain ⟨laid', hl', hp'⟩ := parseProgram_of_alike ht' ha' hc.regrouped_derivation
  refine ⟨⟨laid', hp'⟩, ?_, ?_⟩
  · rw [exists_interprets_iff hp hl, exists_interprets_iff hp' hl']
    by_cases hnil : ∃ behind, chain.front.ComesTo frame machine.quiet (.ok .nil behind)
    · obtain ⟨behind, hnil⟩ := hnil
      simp only [hc.tree_comesTo_of_nil hnil, hc.regrouped_comesTo_of_nil hnil, exists_eq]
    · simp only [hc.comesTo_iff_of_not_nil (not_exists.mp hnil)]
  · intro step step' hstep hstep'
    obtain ⟨result, own, rfl, hresult, heq⟩ := comesTo_of_interprets hp hl hstep
    obtain ⟨result', own', rfl, hresult', heq'⟩ := comesTo_of_interprets hp' hl' hstep'
    refine ⟨?_, ?_⟩
    · intro hnil
      have hsame := ((hc.comesTo_iff_of_not_nil hnil).mp hresult).unique hresult'
      exact conclude_alike file file' (by rw [heq, heq', hsame])
    · intro behind hnil
      obtain rfl := (hc.tree_comesTo_of_nil hnil).mp hresult
      obtain rfl := (hc.regrouped_comesTo_of_nil hnil).mp hresult'
      exact ⟨conclude_alike file file heq, conclude_alike file' file' heq'⟩

/-- `'a' printString printNl ; printString`, taken apart behind the first message -/
def Grammar.Chain.quoted : Chain where
  receiver := ⟨[.leaf .string "a" .origin], .leaf .string "a" .origin⟩
  before := [⟨[.nameToken "printString"], .nameToken "printString"⟩]
  after := [⟨[.nameToken "printNl"], .nameToken "printNl"⟩]
  runs := [⟨[.nameToken "printString"], .compose .messages [.nameToken "printString"]⟩]
  split := by simp

/-- `[] value foo`, taken apart behind the first message -/
def Grammar.Chain.idle : Chain where
  receiver := ⟨[.leaf .leftSquareBracket "[" .origin, .leaf .rightSquareBracket "]" .origin],
    .enclose .block (.leaf .leftSquareBracket "[" .origin)
      (.leaf .rightSquareBracket "]" .origin) []⟩
  before := [⟨[.nameToken "value"], .nameToken "value"⟩]
  after := [⟨[.nameToken "foo"], .nameToken "foo"⟩]
  runs := []
  split := by simp

theorem Grammar.Chain.quoted_parses : quoted.Parses := by
  have hunary : ∀ name, OneMessage [.nameToken name] (.nameToken name) :=
    fun _ => .unary ⟨rfl, rfl⟩
  refine .of_ordered (.string ⟨rfl, rfl⟩) ?_ ?_ ?_
  · simp [quoted, hunary]
  · simp [quoted, Piece.values, Precedes, Node.nameToken, Node.leaf]
  · simp [quoted, (hunary _).run]

theorem Grammar.Chain.idle_parses : idle.Parses := by
  have hunary : ∀ name, OneMessage [.nameToken name] (.nameToken name) :=
    fun _ => .unary ⟨rfl, rfl⟩
  refine .of_ordered ?_ ?_ ?_ ?_
  · exact @Derivation.block _ _ [] [] [] [] none ⟨rfl, rfl⟩ .absent .absent (by simp) ⟨rfl, rfl⟩
  · simp [idle, hunary]
  · simp [idle, Piece.values, Precedes, Node.nameToken, Node.leaf]
  · simp [idle]

/-- A front that is a string, with a further run behind, and one that is nil. -/
theorem parentheses_are_transparent_quoted :
    (run 9 "'a' printString printNl ; printString").Alike
      (run 9 "('a' printString) printNl ; printString") ∧
    ∃ behind, Chain.idle.front.ComesTo 0 .initial (.ok .nil behind) ∧
      Chain.idle.onNil behind =
        .error (.fault ⟨.noSuchOperation "foo" "foo" .nil, .origin⟩) behind ∧
      (Interpretation.conclude ⟨"", "[] value foo"⟩ (Chain.idle.onNil behind)).Alike
        (run 9 "[] value foo") ∧
      (Interpretation.conclude ⟨"", "([] value) foo"⟩ (Chain.idle.refused behind)).Alike
        (run 9 "([] value) foo") := by
  have hrun : ∀ source, (run 9 source).outcome ≠ .tooDeep →
      Interprets ⟨"", source⟩ 0 .initial (run 9 source) :=
    fun source h => ⟨9, rfl, h⟩
  have hquoted := parentheses_are_transparent .quoted Chain.quoted_parses
    ⟨"", "'a' printString printNl ; printString"⟩ ⟨"", "('a' printString) printNl ; printString"⟩
    [.leaf .string "a" ⟨0, 3⟩, .leaf .identifier "printString" ⟨4, 15⟩,
      .leaf .identifier "printNl" ⟨16, 23⟩, .leaf .semicolon ";" ⟨24, 25⟩,
      .leaf .identifier "printString" ⟨26, 37⟩]
    [.leaf .leftParenthesis "(" ⟨0, 1⟩, .leaf .string "a" ⟨1, 4⟩,
      .leaf .identifier "printString" ⟨5, 16⟩, .leaf .rightParenthesis ")" ⟨16, 17⟩,
      .leaf .identifier "printNl" ⟨18, 25⟩, .leaf .semicolon ";" ⟨26, 27⟩,
      .leaf .identifier "printString" ⟨28, 39⟩] rfl rfl rfl rfl 0 .initial
  have hidle := parentheses_are_transparent .idle Chain.idle_parses
    ⟨"", "[] value foo"⟩ ⟨"", "([] value) foo"⟩
    [.leaf .leftSquareBracket "[" ⟨0, 1⟩, .leaf .rightSquareBracket "]" ⟨1, 2⟩,
      .leaf .identifier "value" ⟨3, 8⟩, .leaf .identifier "foo" ⟨9, 12⟩]
    [.leaf .leftParenthesis "(" ⟨0, 1⟩, .leaf .leftSquareBracket "[" ⟨1, 2⟩,
      .leaf .rightSquareBracket "]" ⟨2, 3⟩, .leaf .identifier "value" ⟨4, 9⟩,
      .leaf .rightParenthesis ")" ⟨9, 10⟩, .leaf .identifier "foo" ⟨11, 14⟩] rfl rfl rfl rfl 0
    .initial
  obtain ⟨last, hstring⟩ : ∃ last,
      Chain.quoted.front.ComesTo 0 Machine.initial.quiet (.ok (.string "'a'") last) :=
    ⟨_, 9, rfl, settled_ok _ _⟩
  obtain ⟨behind, hnil⟩ : ∃ behind,
      Chain.idle.front.ComesTo 0 Machine.initial.quiet (.ok .nil behind) :=
    ⟨_, 9, rfl, settled_ok _ _⟩
  refine ⟨?_, behind, hnil, rfl, ?_⟩
  · refine (hquoted.2.2 _ _ (hrun _ (by decide +kernel)) (hrun _ (by decide +kernel))).1 ?_
    intro other h
    cases h.unique hstring
  · exact (hidle.2.2 _ _ (hrun _ (by decide +kernel)) (hrun _ (by decide +kernel))).2 behind hnil

end MiniSmalltalk
