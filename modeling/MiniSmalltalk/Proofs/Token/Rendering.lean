import MiniSmalltalk.Object.Value
import MiniSmalltalk.Proofs.Token.Separation
import MiniSmalltalk.Proofs.Token.Tiling

/-! # Rendering tokens

A token is rendered as its text, as its sign if it has no text, and as a string is printed if it
is one. The renderings of tokens that can be read, with one blank between any two, are read as
tokens of the same kinds with the same texts. -/

namespace MiniSmalltalk

namespace Token

/-- Whether characters are a name: a letter followed by letters and digits. -/
def isName : List Char → Bool
  | [] => false
  | c :: cs => c.isAlpha && cs.all Char.isAlphanum

/-- Whether tokens of a kind can have a text. -/
def isTextOf : Kind → Option String → Bool
  | .identifier, some text => isName text.toList
  | .keyword, some text =>
      text.toList == text.toList.dropLast ++ [':'] && isName text.toList.dropLast
  | .binary, some text => text.toList.length == 1 && text.toList.all isBinary
  | .integer, some text => !text.toList.isEmpty && text.toList.all Char.isDigit
  | .string, some _ => true
  | .answer, none => true
  | .assignment, none => true
  | kind, some text => marks.any fun mark => mark.1 == kind && text.toList == [mark.2]
  | _, none => false

structure Lexical (token : Node) : Prop where
  leaf : token.isLeaf = true
  text : isTextOf token.kind token.text = true

instance (token : Node) : Decidable (Lexical token) :=
  decidable_of_iff (token.isLeaf = true ∧ isTextOf token.kind token.text = true)
    ⟨fun h => ⟨h.1, h.2⟩, fun h => ⟨h.leaf, h.text⟩⟩

def render (token : Node) : String :=
  match token.kind with
  | .string => (Value.string token.textOrEmpty).print
  | .answer => "^"
  | .assignment => ":="
  | _ => token.textOrEmpty

def renderAll (tokens : List Node) : String := " ".intercalate (tokens.map render)

/-! ### Texts and spellings -/

theorem exists_name {cs : List Char} (h : isName cs = true) :
    ∃ c ds, cs = c :: ds ∧ c.isAlpha = true ∧ ∀ d ∈ ds, d.isAlphanum = true := by
  cases cs with
  | nil => cases h
  | cons c ds =>
      rw [isName, Bool.and_eq_true, List.all_eq_true] at h
      exact ⟨c, ds, rfl, h.1, h.2⟩

theorem spelling_identifier {text : String} (h : isName text.toList = true) :
    Spelling .identifier (some text) text.toList := by
  obtain ⟨c, ds, htext, hc, hds⟩ := exists_name h
  have hspelling := Spelling.identifier hc hds
  rwa [← htext, String.ofList_toList] at hspelling

theorem spelling_keyword {text : String} (hlast : text.toList = text.toList.dropLast ++ [':'])
    (h : isName text.toList.dropLast = true) : Spelling .keyword (some text) text.toList := by
  obtain ⟨c, ds, hname, hc, hds⟩ := exists_name h
  have htext : text.toList = c :: (ds ++ [':']) := by
    rw [hlast, hname, List.cons_append]
  have hspelling := Spelling.keyword hc hds
  rwa [← htext, String.ofList_toList] at hspelling

theorem spelling_binary {text : String} (hone : text.toList.length = 1)
    (h : ∀ c ∈ text.toList, isBinary c = true) : Spelling .binary (some text) text.toList := by
  obtain ⟨c, htext⟩ := List.length_eq_one_iff.mp hone
  have hspelling := Spelling.binary (h c (by simp [htext]))
  rwa [← htext, String.ofList_toList] at hspelling

theorem spelling_integer {text : String} (hne : text.toList ≠ [])
    (h : ∀ c ∈ text.toList, c.isDigit = true) : Spelling .integer (some text) text.toList := by
  obtain ⟨c, ds, htext⟩ := List.exists_cons_of_ne_nil hne
  rw [htext, List.forall_mem_cons] at h
  have hspelling := Spelling.integer h.1 h.2
  rwa [← htext, String.ofList_toList] at hspelling

theorem spelling_string (text : String) :
    Spelling .string (some text) (Value.string text).print.toList := by
  have hspelling := @Spelling.string text.toList
  rw [String.ofList_toList] at hspelling
  simpa [Value.print, Text.Quoted.quote] using hspelling

theorem spelling_mark {kind : Kind} {text : String}
    (h : (marks.any fun mark => mark.1 == kind && text.toList == [mark.2]) = true) :
    Spelling kind (some text) text.toList := by
  obtain ⟨mark, hm, hmark⟩ := List.any_eq_true.mp h
  obtain ⟨rfl, htext⟩ : mark.1 = kind ∧ text.toList = [mark.2] := by simpa using hmark
  have hspelling := Spelling.mark hm
  rwa [← htext, String.ofList_toList] at hspelling

/-- A token that can be read is spelled as it is rendered. -/
theorem Lexical.spelling {token : Node} (h : Lexical token) :
    Spelling token.kind token.text (render token).toList := by
  obtain ⟨kind, text, children, span⟩ := token
  have htext : isTextOf kind text = true := h.text
  cases text with
  | none =>
      cases kind with
      | answer => simpa [render] using Spelling.answer
      | assignment => simpa [render] using Spelling.assignment
      | _ => cases htext
  | some text =>
      cases kind with
      | identifier => exact spelling_identifier htext
      | keyword =>
          obtain ⟨hlast, hname⟩ := Bool.and_eq_true_iff.mp htext
          exact spelling_keyword (beq_iff_eq.mp hlast) hname
      | binary =>
          obtain ⟨hone, hall⟩ := Bool.and_eq_true_iff.mp htext
          exact spelling_binary (beq_iff_eq.mp hone) (List.all_eq_true.mp hall)
      | integer =>
          obtain ⟨hne, hall⟩ := Bool.and_eq_true_iff.mp htext
          exact spelling_integer (by simpa using hne) (List.all_eq_true.mp hall)
      | string => exact spelling_string text
      | answer => cases htext
      | assignment => cases htext
      | _ => exact spelling_mark htext

/-- Every kind of token that is spelled somehow has a text that such tokens can have. -/
theorem Spelling.isTextOf {kind : Kind} {text : Option String} {lexeme : List Char}
    (h : Spelling kind text lexeme) : isTextOf kind text = true := by
  cases h with
  | identifier hc hcs => simpa [Token.isTextOf, isName, hc] using hcs
  | @keyword c cs hc hcs =>
      have hdrop : (c :: (cs ++ [':'])).dropLast = c :: cs := by
        rw [← List.cons_append, List.dropLast_concat]
      simpa [Token.isTextOf, hdrop, isName, hc] using hcs
  | binary hc => simp [Token.isTextOf, hc]
  | integer hc hcs => simpa [Token.isTextOf, hc] using hcs
  | mark hm =>
      simp only [marks, List.mem_cons, List.not_mem_nil, or_false, Prod.mk.injEq] at hm
      rcases hm with ⟨rfl, rfl⟩ | ⟨rfl, rfl⟩ | ⟨rfl, rfl⟩ | ⟨rfl, rfl⟩ | ⟨rfl, rfl⟩ |
        ⟨rfl, rfl⟩ | ⟨rfl, rfl⟩ <;> rfl
  | answer => rfl
  | assignment => rfl
  | string => rfl

/-! ### Reading what is rendered -/

/-- The first of several renderings is followed by the end or by a blank. -/
theorem renderAll_cons (token : Node) (tokens : List Node) :
    ∃ gap, Gap gap ∧ Breaks (gap ++ (renderAll tokens).toList) ∧
      (renderAll (token :: tokens)).toList =
        (render token).toList ++ (gap ++ (renderAll tokens).toList) := by
  cases tokens with
  | nil => exact ⟨[], .nil, breaks_nil, by simp [renderAll]⟩
  | cons next others =>
      have hblank : Gap [' '] := .blank rfl .nil
      refine ⟨[' '], hblank, hblank.breaks (by simp) _, ?_⟩
      simp [renderAll, String.intercalate_cons_cons]

/-- Rendered tokens are read with their kinds and texts, from wherever they begin. -/
theorem readings_renderAll {tokens : List Node} (h : ∀ token ∈ tokens, Lexical token)
    (p : Position) :
    ∃ found : List Node, Cursor.readings ⟨(renderAll tokens).toList, p⟩ = found.map .ok ∧
      found.map Node.word = tokens.map Node.word := by
  induction tokens generalizing p with
  | nil => exact ⟨[], Cursor.readings_of_rest_nil rfl, rfl⟩
  | cons token tokens ih =>
      obtain ⟨gap, hgap, hbreaks, htext⟩ := renderAll_cons token tokens
      have hfirst := scan_finds (h token (by simp)).spelling hbreaks p
      obtain ⟨⟨_, position⟩, rfl, -, hscan⟩ := hfirst
      obtain ⟨found, hfound, hwords⟩ :=
        ih (fun token hm => h token (by simp [hm])) (position.advanceAll gap)
      have hreadings := @Cursor.readings_of_token ⟨_, p⟩ _ _ _ hscan
      rw [Cursor.readings_gap hgap, hfound] at hreadings
      rw [htext, hreadings]
      exact ⟨⟨token.kind, token.text, [], _⟩ :: found, rfl, by simp [hwords, Node.word]⟩

end Token

open Token

theorem tokenize_renderAll {tokens : List Node} (h : ∀ token ∈ tokens, Lexical token) :
    ∃ found, tokenize (renderAll tokens) = .ok found ∧
      found.map Node.word = tokens.map Node.word := by
  obtain ⟨found, hfound, hwords⟩ := readings_renderAll h .start
  exact ⟨found, tokenize_eq_ok_iff.mpr hfound, hwords⟩

/-- Every token of a source is one that can be read. -/
theorem lexical_of_tokenize {source : String} {tokens : List Node}
    (h : tokenize source = .ok tokens) : ∀ token ∈ tokens, Lexical token := by
  intro token hm
  obtain ⟨hleaf, lexeme, -, hspelling⟩ :=
    @Tiled.tokens_spelled source [] _ _ (tiled_of_tokenize h) rfl token hm
  exact ⟨hleaf, hspelling.isTextOf⟩

end MiniSmalltalk
