import MiniSmalltalk.Proofs.Session.Layout
import MiniSmalltalk.Proofs.Token.Rendering

/-! # Printed strings

Rendering tokens and tokenizing are inverse to each other. In particular a string is the value of
the program that it is printed as. -/

namespace MiniSmalltalk

open Token Grammar

/-- A printed string is a program of nothing but the string. -/
theorem parseProgram_print (text : String) :
    ∃ token : Node, token.word = (.string, some text) ∧
      parseProgram (Value.string text).print = .ok ⟨some (.compose .expression [token]), []⟩ := by
  have hlexical : ∀ token ∈ [Node.leaf .string text .origin], Lexical token := by
    simp only [List.mem_singleton, forall_eq]
    exact ⟨rfl, rfl⟩
  obtain ⟨found, hfound, hwords⟩ := tokenize_renderAll hlexical
  obtain ⟨token, others, rfl, hword, hothers⟩ := List.map_eq_cons_iff.mp hwords
  obtain rfl := List.map_eq_nil_iff.mp hothers
  have hstring : Terminal .string token :=
    ⟨congrArg Prod.fst hword, (lexical_of_tokenize hfound token (by simp)).leaf⟩
  have hexpression := @Derivation.send _ _ none [] (.string hstring) (by simp) (by simp)
  have hprogram := @Derivation.statements _ _ _ [] hexpression (by simp) .absent
  have hprint : renderAll [Node.leaf .string text .origin] = (Value.string text).print := by
    simp [renderAll, render, Node.leaf, Node.textOrEmpty]
  rw [hprint] at hfound
  exact ⟨token, hword, parseProgram_of_derivation hfound hprogram⟩

theorem evalUpTo_string {token : Node} {text : String} (h : token.word = (.string, some text))
    (depth : Nat) (frame : FrameId) (machine : Machine) :
    evalUpTo (depth + 1) token frame machine = .ok (.string text) machine := by
  obtain ⟨hkind, htext⟩ := Prod.mk.inj h
  simp [evalUpTo_succ, Evaluator.step, hkind, Node.textOrEmpty, htext, pure, EStateM.pure]

/-- A string is the value of the program that it is printed as, which does nothing else. -/
theorem run_print (text : String) (depth : Nat) :
    run (depth + 2) (Value.string text).print =
      ⟨⟨"", (Value.string text).print⟩, .value (.string text), .initial⟩ := by
  obtain ⟨token, hword, hparsed⟩ := parseProgram_print text
  have hvalue : evalUpTo (depth + 2) (.compose .expression [token]) 0 .initial =
      .ok (.string text) .initial := by
    rw [evalUpTo_expression rfl, Evaluator.expression_compose,
      Eval.bind_of_ok (evalUpTo_string hword depth 0 .initial)]
    rfl
  rw [run, @interpret_of_parsed ⟨"", (Value.string text).print⟩ _ hparsed]
  exact congrArg (Interpretation.conclude _) hvalue

/-- Tokens that can be read, whatever they are and in whatever order, are read again with their
kinds and texts from their renderings with one blank between any two, and a source has no others.
In particular a string is the value of the program that it is printed as, which shows nothing and
gives no warning. -/
theorem rendering_is_inverse :
    (∀ tokens : List Node, (∀ token ∈ tokens, Lexical token) →
      ∃ found, tokenize (renderAll tokens) = .ok found ∧
        found.map Node.word = tokens.map Node.word) ∧
    (∀ (source : String) (tokens : List Node), tokenize source = .ok tokens →
      ∀ token ∈ tokens, Lexical token) ∧
    ∀ (text : String) (depth : Nat),
      (run (depth + 2) (Value.string text).print).outcome = .value (.string text) ∧
        (run (depth + 2) (Value.string text).print).transcript = "" ∧
        (run (depth + 2) (Value.string text).print).warnings = [] := by
  refine ⟨fun tokens h => tokenize_renderAll h, fun source tokens h => lexical_of_tokenize h, ?_⟩
  intro text depth
  rw [run_print]
  exact ⟨rfl, rfl, rfl⟩

theorem rendering_is_inverse_of_neighbours :
    ∃ found, tokenize ": = := at: a : := - 12 '''''' '' '\"\n' ^" = .ok found ∧
      found.map Node.word =
        [(.colon, some ":"), (.binary, some "="), (.assignment, none), (.keyword, some "at:"),
          (.identifier, some "a"), (.colon, some ":"), (.assignment, none), (.binary, some "-"),
          (.integer, some "12"), (.string, some "''"), (.string, some ""),
          (.string, some "\"\n"), (.answer, none)] := by
  obtain ⟨found, hfound, hwords⟩ := rendering_is_inverse.1
    [.leaf .colon ":" .origin, .leaf .binary "=" .origin, .bare .assignment .origin,
      .leaf .keyword "at:" .origin, .leaf .identifier "a" .origin, .leaf .colon ":" .origin,
      .bare .assignment .origin, .leaf .binary "-" .origin, .leaf .integer "12" .origin,
      .leaf .string "''" .origin, .leaf .string "" .origin, .leaf .string "\"\n" .origin,
      .bare .answer .origin] (by decide +kernel)
  refine ⟨found, ?_, hwords⟩
  rw [← hfound]
  exact congrArg tokenize (by decide +kernel)

end MiniSmalltalk
