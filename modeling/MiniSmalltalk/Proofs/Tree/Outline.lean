import MiniSmalltalk.Proofs.Token.Spelling
import MiniSmalltalk.Proofs.Tree.Relocation
import MiniSmalltalk.Tree.Outline

/-! # Outlines determine their trees

An outline is a list of entries, each written on a line of its own. A line tells the depth of its
entry, whether the slot is empty, and otherwise kind and text. The depths tell how the entries nest,
so that two trees with the same outline differ at most in where they stand. -/

namespace MiniSmalltalk

/-- A list falls apart in one way only into characters that pass a test and a rest that does not
begin with one. -/
theorem append_inj_of_stops {test : Char → Bool} {front front' rest rest' : List Char}
    (hf : ∀ c ∈ front, test c = true) (hf' : ∀ c ∈ front', test c = true)
    (hr : ∀ c ∈ rest.head?, test c = false) (hr' : ∀ c ∈ rest'.head?, test c = false)
    (h : front ++ rest = front' ++ rest') : front = front' ∧ rest = rest' := by
  have htake := congrArg (List.takeWhile test) h
  rw [List.takeWhile_append_of_pos hf, List.takeWhile_append_of_pos hf',
    (Token.stops_of_head? hr).1, (Token.stops_of_head? hr').1, List.append_nil,
    List.append_nil] at htake
  subst htake
  exact ⟨rfl, List.append_cancel_left h⟩

namespace Node

/-- A node whose text, if it has one, stays on one line. -/
def OneLine (node : Node) : Prop := ∀ text ∈ node.text, '\n' ∉ text.toList

/-! ### Lines -/

/-- What one line of an outline says: a depth, and the kind and text of a node unless the slot is
empty. -/
structure Entry where
  depth : Nat
  label : Option (Kind × Option String)

namespace Entry

def word (entry : Entry) : List Char :=
  match entry.label with
  | some (kind, _) => kind.name.toList
  | none => "undefined".toList

/-- What follows the word: the text between ticks, if there is one. -/
def remark (entry : Entry) : List Char :=
  match entry.label with
  | some (_, some text) => ' ' :: '\'' :: (text.toList ++ ['\''])
  | _ => []

def line (entry : Entry) : List Char :=
  List.replicate (4 * entry.depth) ' ' ++ (entry.word ++ entry.remark)

/-- No newline stands in the text of an entry. -/
def OneLine (entry : Entry) : Prop :=
  ∀ kind text, entry.label = some (kind, some text) → '\n' ∉ text.toList

/-- No kind is called as an empty slot is. -/
theorem name_ne_undefined (kind : Kind) : kind.name.toList ≠ "undefined".toList := by
  cases kind <;> decide

theorem word_letters (entry : Entry) :
    entry.word ≠ [] ∧ ∀ c ∈ entry.word, c ≠ ' ' ∧ c ≠ '\n' := by
  have hletters :
      (!entry.word.isEmpty && entry.word.all fun c => c != ' ' && c != '\n') = true := by
    unfold word
    split
    · rename_i kind text hlabel
      cases kind <;> decide
    · decide
  simpa using hletters

theorem remark_head? (entry : Entry) : ∀ c ∈ entry.remark.head?, c = ' ' := by
  unfold remark
  split <;> simp

theorem newline_notMem_line {entry : Entry} (h : entry.OneLine) : '\n' ∉ entry.line := by
  have hremark : '\n' ∉ entry.remark := by
    unfold remark
    split
    · rename_i kind text hlabel
      simpa using h kind text hlabel
    · simp
  have hword : '\n' ∉ entry.word := fun hm => (entry.word_letters.2 _ hm).2 rfl
  simp [line, hremark, hword]

theorem word_remark_inj {entry other : Entry} (hd : entry.depth = other.depth)
    (hw : entry.word = other.word) (hr : entry.remark = other.remark) : entry = other := by
  obtain ⟨depth, label⟩ := entry
  obtain ⟨depth', label'⟩ := other
  obtain rfl : depth = depth' := hd
  match label, label' with
  | none, none => rfl
  | none, some (kind, text) => exact absurd hw.symm (name_ne_undefined kind)
  | some (kind, text), none => exact absurd hw (name_ne_undefined kind)
  | some (kind, text), some (kind', text') =>
      obtain rfl : kind = kind' := Kind.name_inj (String.toList_inj.mp hw)
      cases text <;> cases text' <;> simp_all [remark, String.toList_inj]

/-- A line tells its entry: the blanks in front are its depth, and the first blank behind them
stands between word and text. -/
theorem line_inj {entry other : Entry} (h : entry.line = other.line) : entry = other := by
  have hlead : ∀ entry : Entry, ∀ c ∈ (entry.word ++ entry.remark).head?, (c == ' ') = false := by
    intro entry c hc
    obtain ⟨first, letters, hword⟩ := List.exists_cons_of_ne_nil entry.word_letters.1
    rw [hword, List.cons_append, List.head?_cons, Option.mem_some_iff] at hc
    subst hc
    have hletter := entry.word_letters.2 first (by simp [hword])
    simpa using hletter.1
  have hword : ∀ entry : Entry, ∀ c ∈ entry.word, (c != ' ') = true := by
    intro entry c hc
    simpa using (entry.word_letters.2 c hc).1
  have hremark : ∀ entry : Entry, ∀ c ∈ entry.remark.head?, (c != ' ') = false := by
    intro entry c hc
    simpa using entry.remark_head? c hc
  obtain ⟨hblanks, hbehind⟩ := @append_inj_of_stops (· == ' ') _ _ _ _ (by simp) (by simp)
    (hlead entry) (hlead other) h
  obtain ⟨hw, hr⟩ := append_inj_of_stops (hword entry) (hword other) (hremark entry)
    (hremark other) hbehind
  have hdepth : entry.depth = other.depth := by
    have hlength := congrArg List.length hblanks
    simp only [List.length_replicate] at hlength
    omega
  exact word_remark_inj hdepth hw hr

end Entry

/-- The lines of entries, each ended by a newline. -/
def page (entries : List Entry) : List Char := entries.flatMap fun entry => entry.line ++ ['\n']

@[simp] theorem page_nil : page [] = [] := rfl

@[simp] theorem page_cons (entry : Entry) (entries : List Entry) :
    page (entry :: entries) = entry.line ++ '\n' :: page entries := by
  simp [page]

theorem page_append (front back : List Entry) : page (front ++ back) = page front ++ page back := by
  simp [page]

/-- Entries are read off the page, line by line. -/
theorem page_inj {entries others : List Entry} (he : ∀ entry ∈ entries, entry.OneLine)
    (ho : ∀ entry ∈ others, entry.OneLine) (h : page entries = page others) : entries = others := by
  induction entries generalizing others with
  | nil => cases others <;> simp_all
  | cons entry entries ih =>
      cases others with
      | nil => simp at h
      | cons other others =>
          have hline : ∀ entry : Entry, entry.OneLine → ∀ c ∈ entry.line, (c != '\n') = true := by
            intro entry hone c hc
            simpa using fun hn : c = '\n' => Entry.newline_notMem_line hone (hn ▸ hc)
          rw [page_cons, page_cons] at h
          obtain ⟨hl, hrest⟩ := append_inj_of_stops (hline entry (he entry List.mem_cons_self))
            (hline other (ho other List.mem_cons_self)) (by simp) (by simp) h
          obtain rfl := Entry.line_inj hl
          have hlater := ih (fun found hm => he found (List.mem_cons_of_mem _ hm))
            (fun found hm => ho found (List.mem_cons_of_mem _ hm)) (List.cons.inj hrest).2
          rw [hlater]

/-! ### Entries of a tree -/

mutual

def entries (depth : Nat) : Node → List Entry
  | ⟨kind, text, children, _⟩ => ⟨depth, some (kind, text)⟩ :: slotEntries (depth + 1) children

def slotEntries (depth : Nat) : List (Option Node) → List Entry
  | [] => []
  | none :: slots => ⟨depth, none⟩ :: slotEntries depth slots
  | some node :: slots => entries depth node ++ slotEntries depth slots

end

theorem entries_eq (depth : Nat) (node : Node) :
    node.entries depth =
      ⟨depth, some (node.kind, node.text)⟩ :: slotEntries (depth + 1) node.children := by
  cases node
  rw [entries]

theorem toList_outlineLine_heading (depth : Nat) (node : Node) :
    (outlineLine depth node.heading).toList =
      Entry.line ⟨depth, some (node.kind, node.text)⟩ ++ ['\n'] := by
  unfold outlineLine heading Entry.line Entry.word Entry.remark
  split <;> simp_all [toString]

theorem toList_outlineLine_undefined (depth : Nat) :
    (outlineLine depth "undefined").toList = Entry.line ⟨depth, none⟩ ++ ['\n'] := by
  simp [outlineLine, Entry.line, Entry.word, Entry.remark]

theorem toList_outlineSlots {slots : List (Option Node)} {depth : Nat}
    (h : ∀ child, some child ∈ slots →
      (child.outlineAt depth).toList = page (child.entries depth)) :
    (outlineSlots depth slots).toList = page (slotEntries depth slots) := by
  induction slots with
  | nil => simp [outlineSlots, slotEntries]
  | cons slot slots ih =>
      have hslots := ih fun child hm => h child (List.mem_cons_of_mem _ hm)
      cases slot with
      | none =>
          simp [outlineSlots, outlineSlot, slotEntries, toList_outlineLine_undefined, hslots]
      | some child =>
          have hchild := h child List.mem_cons_self
          simp [outlineSlots, outlineSlot, slotEntries, page_append, hchild, hslots]

theorem toList_outlineAt (node : Node) (depth : Nat) :
    (node.outlineAt depth).toList = page (node.entries depth) := by
  induction everywhere_of_forall (fun _ => trivial) node generalizing depth with
  | @node node _ _ ih =>
      have hslots := toList_outlineSlots fun child hm => ih child hm (depth + 1)
      rw [entries_eq, page_cons, ← hslots]
      obtain ⟨kind, text, children, span⟩ := node
      rw [outlineAt, String.toList_append, toList_outlineLine_heading]
      simp

/-- The outline of a tree is the page of its entries. -/
theorem toList_outline (node : Node) : node.outline.toList = page (node.entries 0) :=
  toList_outlineAt node 0

/-! ### Nesting -/

/-- What follows the slots at a depth lies less deep. -/
def Shallow (depth : Nat) (rest : List Entry) : Prop := ∀ entry ∈ rest.head?, entry.depth < depth

theorem shallow_slotEntries {depth : Nat} {rest : List Entry} (h : Shallow depth rest)
    (slots : List (Option Node)) : Shallow (depth + 1) (slotEntries depth slots ++ rest) := by
  intro entry hm
  match slots with
  | [] => exact Nat.lt_succ_of_lt (h entry hm)
  | none :: slots =>
      obtain rfl : _ = entry := by simpa [slotEntries] using hm
      exact Nat.lt_succ_self depth
  | some node :: slots =>
      obtain rfl : _ = entry := by simpa [slotEntries, entries_eq] using hm
      exact Nat.lt_succ_self depth

theorem not_shallow_slotEntries {depth : Nat} {slot : Option Node} {slots : List (Option Node)}
    {rest : List Entry} : ¬ Shallow depth (slotEntries depth (slot :: slots) ++ rest) := by
  intro h
  cases slot with
  | none => exact Nat.lt_irrefl depth (h ⟨depth, none⟩ (by simp [slotEntries]))
  | some node =>
      refine Nat.lt_irrefl depth (h ⟨depth, some (node.kind, node.text)⟩ ?_)
      simp [slotEntries, entries_eq]

/-- Entries at the front tell a tree, whatever lies less deep behind them. -/
def Told (node : Node) : Prop :=
  ∀ (other : Node) (depth : Nat) (rest rest' : List Entry),
    Shallow (depth + 1) rest → Shallow (depth + 1) rest' →
    node.entries depth ++ rest = other.entries depth ++ rest' →
    node.placeless = other.placeless ∧ rest = rest'

theorem slotEntries_inj {slots : List (Option Node)}
    (h : ∀ child, some child ∈ slots → child.Told) {others : List (Option Node)} {depth : Nat}
    {rest rest' : List Entry} (hr : Shallow depth rest) (hr' : Shallow depth rest')
    (he : slotEntries depth slots ++ rest = slotEntries depth others ++ rest') :
    slots.map (Option.map placeless) = others.map (Option.map placeless) ∧ rest = rest' := by
  induction slots generalizing others with
  | nil =>
      cases others with
      | nil => exact ⟨rfl, he⟩
      | cons other others =>
          obtain rfl : rest = _ := he
          exact absurd hr not_shallow_slotEntries
  | cons slot slots ih =>
      cases others with
      | nil =>
          obtain rfl : _ = rest' := he
          exact absurd hr' not_shallow_slotEntries
      | cons other others =>
          have hslots := @ih (fun child hm => h child (List.mem_cons_of_mem _ hm)) others
          match slot, other with
          | none, none =>
              obtain ⟨hmap, hrest⟩ := hslots (List.cons.inj he).2
              exact ⟨by simp [hmap], hrest⟩
          | none, some other => simp [slotEntries, entries_eq] at he
          | some node, none => simp [slotEntries, entries_eq] at he
          | some node, some other =>
              simp only [slotEntries, List.append_assoc] at he
              obtain ⟨hnode, hbehind⟩ := h node List.mem_cons_self other depth _ _
                (shallow_slotEntries hr slots) (shallow_slotEntries hr' others) he
              obtain ⟨hmap, hrest⟩ := hslots hbehind
              exact ⟨by simp [hnode, hmap], hrest⟩

theorem told (node : Node) : node.Told := by
  induction everywhere_of_forall (fun _ => trivial) node with
  | @node node _ _ ih =>
      intro other depth rest rest' hr hr' he
      rw [entries_eq, entries_eq, List.cons_append, List.cons_append, List.cons.injEq,
        Entry.mk.injEq, Option.some.injEq, Prod.mk.injEq] at he
      obtain ⟨⟨-, hkind, htext⟩, hslots⟩ := he
      obtain ⟨hmap, hrest⟩ := slotEntries_inj ih hr hr' hslots
      refine ⟨eq_of_parts ?_ ?_ ?_ ?_, hrest⟩
      · simpa [placeless] using hkind
      · simpa [placeless] using htext
      · rw [placeless, placeless, relocate_children, relocate_children]
        exact hmap
      · simp [placeless]

theorem placeless_of_entries {node other : Node} (h : node.entries 0 = other.entries 0) :
    node.placeless = other.placeless :=
  (told node other 0 [] [] (by simp [Shallow]) (by simp [Shallow]) (by simpa using h)).1

theorem slotEntries_placeless {slots : List (Option Node)} {depth : Nat}
    (h : ∀ child, some child ∈ slots → child.placeless.entries depth = child.entries depth) :
    slotEntries depth (slots.map (Option.map placeless)) = slotEntries depth slots := by
  induction slots with
  | nil => rfl
  | cons slot slots ih =>
      have hslots := ih fun child hm => h child (List.mem_cons_of_mem _ hm)
      cases slot with
      | none => simp [slotEntries, hslots]
      | some child => simp [slotEntries, h child List.mem_cons_self, hslots]

/-- The entries of a tree do not tell where it stands. -/
theorem entries_placeless (node : Node) (depth : Nat) :
    node.placeless.entries depth = node.entries depth := by
  induction everywhere_of_forall (fun _ => trivial) node generalizing depth with
  | @node node _ _ ih =>
      have hslots := slotEntries_placeless fun child hm => ih child hm (depth + 1)
      rw [entries_eq, entries_eq, ← hslots]
      simp only [placeless, relocate_kind, relocate_text, relocate_children]
      rfl

/-! ### Trees on single lines -/

theorem slotEntries_oneLine {slots : List (Option Node)} {depth : Nat}
    (h : ∀ child, some child ∈ slots → ∀ entry ∈ child.entries depth, entry.OneLine) :
    ∀ entry ∈ slotEntries depth slots, entry.OneLine := by
  induction slots with
  | nil => simp [slotEntries]
  | cons slot slots ih =>
      have hslots := ih fun child hm => h child (List.mem_cons_of_mem _ hm)
      intro entry hm
      cases slot with
      | none =>
          rcases List.mem_cons.mp hm with rfl | hm
          · nofun
          · exact hslots entry hm
      | some child =>
          rcases List.mem_append.mp hm with hm | hm
          · exact h child List.mem_cons_self entry hm
          · exact hslots entry hm

theorem entries_oneLine {node : Node} (h : node.Everywhere OneLine) (depth : Nat) :
    ∀ entry ∈ node.entries depth, entry.OneLine := by
  induction h generalizing depth with
  | @node node hnode _ ih =>
      intro entry hm
      rw [entries_eq] at hm
      rcases List.mem_cons.mp hm with rfl | hm
      · rintro kind text heq
        obtain ⟨-, htext⟩ := Prod.mk.inj (Option.some.inj heq)
        exact hnode text htext
      · exact slotEntries_oneLine (fun child hc => ih child hc (depth + 1)) entry hm

/-- Trees without newlines in their texts have the same outline exactly if they are the same but
for where they stand: in kinds, in texts, be they missing or empty, and in all their slots. -/
theorem outline_determines_tree (a b : Node) (ha : a.Everywhere OneLine)
    (hb : b.Everywhere OneLine) : a.outline = b.outline ↔ a.placeless = b.placeless := by
  rw [← String.toList_inj, toList_outline, toList_outline]
  constructor
  · intro h
    exact placeless_of_entries (page_inj (entries_oneLine ha 0) (entries_oneLine hb 0) h)
  · intro h
    rw [← entries_placeless a, ← entries_placeless b, h]

/-- A text that looks like the line of another node, beside an empty slot and a text that is empty
but not missing. -/
theorem outline_determines_tree_quoted :
    ∃ a b : Node, a.span ≠ b.span ∧
      a.outline = "Messages\n    undefined\n    Identifier 'x' 'y'\n        String ''\n" ∧
      a.Everywhere OneLine ∧ b.Everywhere OneLine ∧
      (a.outline = b.outline ↔ a.placeless = b.placeless) ∧ a.placeless = b.placeless := by
  have hone : ∀ offset : Nat, Everywhere OneLine
      ⟨.messages, none, [none, some ⟨.identifier, some "x' 'y",
        [some (.leaf .string "" ⟨offset + 6, offset + 8⟩)], ⟨offset, offset + 8⟩⟩],
        ⟨offset, offset + 8⟩⟩ := by
    intro offset
    refine .node (by simp [OneLine]) ?_
    intro child hm
    obtain rfl : child = _ := by simpa using hm
    refine .node (by simp [OneLine]) ?_
    intro child hm
    obtain rfl : child = _ := by simpa using hm
    exact .leaf rfl (by simp [OneLine, leaf])
  have hsame := outline_determines_tree _ _ (hone 0) (hone 3)
  exact ⟨_, _, by decide, by decide, hone 0, hone 3, hsame, hsame.mp (by decide)⟩

end Node

end MiniSmalltalk
