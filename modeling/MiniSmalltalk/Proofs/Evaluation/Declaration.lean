import MiniSmalltalk.Grammar.Program
import MiniSmalltalk.Proofs.Evaluation.Provenance

/-! # Implicit declarations

An assignment that has to bind a name anew makes an implicit local, unless it does so in a root
frame: a name that a frame binds in the end, although it did not bind it before the evaluation and
the block that the frame was made for does not declare it. The notices of implicit declarations
that an evaluation gives and the implicit locals it leaves behind correspond one to one. -/

namespace MiniSmalltalk

def Notice.declared? : Notice → Option String
  | .implicitDeclaration name _ => some name
  | .unparsedInput _ => none

/-! ### Names and parents of frames -/

namespace Heap

variable (heap : Heap)

def parent? (id : FrameId) : Option (Option FrameId) := (heap.frame? id).map Frame.parent

theorem isRoot_eq (id : FrameId) : heap.isRoot id = decide (heap.parent? id = some none) := by
  cases hf : heap.frame? id with
  | none => simp [isRoot, parent?, hf]
  | some frame => cases hp : frame.parent <;> simp [isRoot, parent?, hf, hp]

variable {heap}

theorem lt_size_of_defines {id : FrameId} {name : String} (h : heap.defines id name = true) :
    id < heap.size := by
  obtain ⟨frame, hf, -⟩ := defines_iff.mp h
  exact lt_size_of_frame? hf

theorem parent?_init (id other : FrameId) (name : String) (value : Value) :
    (heap.init id name value).parent? other = heap.parent? other := by
  by_cases h : other = id
  · subst h
    rw [parent?, frame?_init_self, Option.map_map]
    rfl
  · rw [parent?, frame?_init_of_ne h, parent?]

theorem isRoot_init (id other : FrameId) (name : String) (value : Value) :
    (heap.init id name value).isRoot other = heap.isRoot other := by
  rw [isRoot_eq, isRoot_eq, parent?_init]

theorem defines_init {id : FrameId} (h : id < heap.size) (name : String) (value : Value)
    (other : FrameId) (asked : String) :
    (heap.init id name value).defines other asked = true ↔
      heap.defines other asked = true ∨ other = id ∧ asked = name := by
  have hframe : heap.frame? id = some heap.frames[id] := Array.getElem?_eq_getElem h
  cases hf : heap.frame? other with
  | some frame =>
      obtain ⟨found, hfound, -, hdefines⟩ := frame?_init_of_some hf id name value
      simp [defines, hf, hfound, hdefines]
  | none =>
      have hne : other ≠ id := by
        rintro rfl
        simp [hframe] at hf
      simp [defines, frame?_init_of_ne hne, hf, hne]

theorem frame?_push (frame : Frame) (id : FrameId) :
    (heap.push frame).frame? id = if id = heap.size then some frame else heap.frame? id := by
  rw [push, frame?, Array.getElem?_push]
  rfl

theorem nearest?_none_defines {id : FrameId} {name : String} (h : heap.nearest? id name = none) :
    heap.defines id name = false := by
  cases hf : heap.frame? id with
  | none => simp [defines, hf]
  | some frame =>
      by_cases hd : frame.defines name = true
      · simp [nearest?, nearestUpTo, hf, hd] at h
      · simpa [defines, hf] using hd

end Heap

/-! ### Names that are declared -/

/-- A frame was made for an origin, given the number of frames there were before. -/
def MadeFor (size : Nat) (made : List Origin) (id : Nat) (origin : Origin) : Prop :=
  ∃ index, id = size + index ∧ made[index]? = some origin

/-- A name is declared by the block that a frame was made for. -/
def Declared (size : Nat) (made : List Origin) (id : Nat) (name : String) : Prop :=
  ∃ origin, MadeFor size made id origin ∧ origin.Declares name

section

variable {size id : Nat} {made more : List Origin} {origin : Origin} {name : String}

theorem MadeFor.lt (h : MadeFor size made id origin) : id < size + made.length := by
  obtain ⟨index, rfl, hm⟩ := h
  have hlt := (List.getElem?_eq_some_iff.mp hm).1
  omega

theorem MadeFor.le (h : MadeFor size made id origin) : size ≤ id := by
  obtain ⟨index, rfl, -⟩ := h
  omega

theorem MadeFor.unique {other : Origin} (h : MadeFor size made id origin)
    (h' : MadeFor size made id other) : origin = other := by
  obtain ⟨index, rfl, hm⟩ := h
  obtain ⟨index', hindex, hm'⟩ := h'
  obtain rfl : index = index' := by omega
  exact Option.some.inj (hm.symm.trans hm')

theorem MadeFor.exists_of_lt (hle : size ≤ id) (hlt : id < size + made.length) :
    ∃ origin, MadeFor size made id origin :=
  ⟨_, id - size, by omega, List.getElem?_eq_getElem (by omega)⟩

theorem madeFor_append : MadeFor size (made ++ more) id origin ↔
    MadeFor size made id origin ∨ MadeFor (size + made.length) more id origin := by
  constructor
  · rintro ⟨index, rfl, hm⟩
    by_cases h : index < made.length
    · rw [List.getElem?_append_left h] at hm
      exact .inl ⟨index, rfl, hm⟩
    · rw [List.getElem?_append_right (by omega)] at hm
      exact .inr ⟨index - made.length, by omega, hm⟩
  · rintro (⟨index, rfl, hm⟩ | ⟨index, rfl, hm⟩)
    · refine ⟨index, rfl, ?_⟩
      rw [List.getElem?_append_left (List.getElem?_eq_some_iff.mp hm).1, hm]
    · refine ⟨made.length + index, by omega, ?_⟩
      rw [List.getElem?_append_right (by omega), ← hm]
      simp

theorem madeFor_nil : ¬ MadeFor size [] id origin := by
  rintro ⟨index, -, hm⟩
  simp at hm

theorem madeFor_singleton {other : Origin} :
    MadeFor size [other] id origin ↔ id = size ∧ other = origin := by
  constructor
  · rintro ⟨index, rfl, hm⟩
    cases index with
    | zero => exact ⟨rfl, Option.some.inj hm⟩
    | succ index => simp at hm
  · rintro ⟨rfl, rfl⟩
    exact ⟨0, rfl, rfl⟩

theorem declared_append : Declared size (made ++ more) id name ↔
    Declared size made id name ∨ Declared (size + made.length) more id name := by
  simp only [Declared, madeFor_append, or_and_right, exists_or]

theorem Declared.le (h : Declared size made id name) : size ≤ id := by
  obtain ⟨origin, hmade, -⟩ := h
  exact hmade.le

theorem not_declared_nil : ¬ Declared size [] id name :=
  fun ⟨_, hmade, _⟩ => madeFor_nil hmade

end

/-! ### Assignments -/

namespace Machine

variable (machine : Machine) {id : FrameId} {name : String} {span : Span} {value : Value}

/-- An assignment that finds a binding gives no notice. -/
theorem store_of_nearest {holder : FrameId} (h : machine.heap.nearest? id name = some holder) :
    machine.store id name span value =
      { machine with heap := machine.heap.init holder name value } := by
  simp [store, Heap.set, h]

/-- An assignment that finds no binding gives a notice, except in a root frame. -/
theorem store_of_none (h : machine.heap.nearest? id name = none) :
    machine.store id name span value =
      { machine with
        heap := machine.heap.init id name value
        notices :=
          if machine.heap.isRoot id = true then machine.notices
          else machine.notices ++ [.implicitDeclaration name span] } := by
  by_cases hr : machine.heap.isRoot id = true <;>
    simp [store, Heap.set, h, Heap.isRoot_init, hr]

end Machine

/-! ### Growth -/

/-- What a frame binds without an assignment in between: it did so before, or its block declares
the name. -/
def Machine.Given (machine : Machine) (made : List Origin) (id : FrameId) (name : String) : Prop :=
  machine.heap.defines id name = true ∨ Declared machine.heap.size made id name

theorem Machine.given_nil {machine : Machine} {id : FrameId} {name : String} :
    machine.Given [] id name ↔ machine.heap.defines id name = true :=
  or_iff_left not_declared_nil

/-- Frames are made for their origins, and they keep their parents and the names they bind. -/
structure Machine.Grows (before : Machine) (made : List Origin) (after : Machine) : Prop where
  size : after.heap.size = before.heap.size + made.length
  old : ∀ id < before.heap.size, after.heap.parent? id = before.heap.parent? id
  new : ∀ id origin, MadeFor before.heap.size made id origin →
    after.heap.parent? id = some (origin.map Block.frame)
  given : ∀ id name, before.Given made id name → after.heap.defines id name = true

namespace Machine.Grows

variable {first second third : Machine} {made more : List Origin}

theorem isRoot (h : first.Grows made second) {id : FrameId} (hid : id < first.heap.size) :
    second.heap.isRoot id = first.heap.isRoot id := by
  rw [Heap.isRoot_eq, Heap.isRoot_eq, h.old id hid]

theorem given_append (h : first.Grows made second) {id : FrameId} {name : String} :
    first.Given (made ++ more) id name ↔
      first.Given made id name ∨ Declared second.heap.size more id name := by
  rw [Given, Given, declared_append, h.size, or_assoc]

theorem trans (h : first.Grows made second) (h' : second.Grows more third) :
    first.Grows (made ++ more) third := by
  refine ⟨?_, ?_, ?_, ?_⟩
  · rw [h'.size, h.size, List.length_append]
    omega
  · intro id hid
    have hlater : id < second.heap.size := by
      rw [h.size]
      omega
    rw [h'.old id hlater, h.old id hid]
  · intro id origin hmade
    rcases madeFor_append.mp hmade with hmade | hmade
    · rw [h'.old id (h.size ▸ hmade.lt), h.new id origin hmade]
    · rw [← h.size] at hmade
      exact h'.new id origin hmade
  · intro id name hd
    rcases h.given_append.mp hd with hd | hd
    · exact h'.given id name (.inl (h.given id name hd))
    · exact h'.given id name (.inr hd)

/-- Nothing is made where frames keep their parents and no name is lost. -/
theorem of_defines {before after : Machine} (hs : after.heap.size = before.heap.size)
    (hp : ∀ id, after.heap.parent? id = before.heap.parent? id)
    (hd : ∀ id name, before.heap.defines id name = true → after.heap.defines id name = true) :
    before.Grows [] after := by
  refine ⟨hs, fun id _ => hp id, fun id origin hmade => absurd hmade madeFor_nil, ?_⟩
  intro id name hg
  exact hd id name (given_nil.mp hg)

end Machine.Grows

/-! ### Names bound anew -/

/-- In the end, a frame that is no root frame binds a name that was not given. -/
structure Machine.BindsAnew (before : Machine) (made : List Origin) (after : Machine)
    (id : FrameId) (name : String) : Prop where
  inner : after.heap.isRoot id = false
  bound : after.heap.defines id name = true
  fresh : ¬ before.Given made id name

/-- Over two stretches, a name is bound anew on the first one or on the second one. -/
theorem Machine.Grows.bindsAnew_append {first second third : Machine} {made more : List Origin}
    (h : first.Grows made second) (h' : second.Grows more third) {id : FrameId} {name : String} :
    first.BindsAnew (made ++ more) third id name ↔
      first.BindsAnew made second id name ∨ second.BindsAnew more third id name := by
  constructor
  · intro ⟨hinner, hbound, hfresh⟩
    rw [h.given_append, not_or] at hfresh
    by_cases hsecond : second.heap.defines id name = true
    · rw [h'.isRoot (Heap.lt_size_of_defines hsecond)] at hinner
      exact .inl ⟨hinner, hsecond, hfresh.1⟩
    · exact .inr ⟨hinner, hbound, fun hg => hg.elim hsecond hfresh.2⟩
  · rintro (⟨hinner, hbound, hfresh⟩ | ⟨hinner, hbound, hfresh⟩)
    · have hid := Heap.lt_size_of_defines hbound
      refine ⟨by rw [h'.isRoot hid, hinner], h'.given id name (.inl hbound), ?_⟩
      rw [h.given_append, not_or]
      exact ⟨hfresh, fun hd => absurd hd.le (Nat.not_le_of_lt hid)⟩
    · refine ⟨hinner, hbound, ?_⟩
      rw [h.given_append, not_or]
      exact ⟨fun hg => hfresh (.inl (h.given id name hg)), fun hd => hfresh (.inr hd)⟩

/-- Frames grow, and the notices that are added account for the names that are bound anew. -/
structure Machine.Tally (before : Machine) (made : List Origin) (after : Machine) : Prop where
  grows : before.Grows made after
  ledger : ∃ (locals : List (FrameId × String)) (added : List Notice),
    locals.Nodup ∧
    (∀ id name, (id, name) ∈ locals ↔ before.BindsAnew made after id name) ∧
    after.notices = before.notices ++ added ∧
    added.map Notice.declared? = locals.map fun entry => some entry.2

namespace Machine.Tally

/-- Nothing has to be accounted for where all names are given. -/
theorem of_given {before after : Machine} {made : List Origin} (h : before.Grows made after)
    (hg : ∀ id name, after.heap.isRoot id = false → after.heap.defines id name = true →
      before.Given made id name) (hn : after.notices = before.notices) :
    before.Tally made after := by
  refine ⟨h, [], [], .nil, ?_, by simp [hn], rfl⟩
  intro id name
  refine iff_of_false (by simp) ?_
  intro ⟨hinner, hbound, hfresh⟩
  exact hfresh (hg id name hinner hbound)

variable {machine : Machine}

theorem still {behind : Machine} (hh : behind.heap = machine.heap)
    (hn : behind.notices = machine.notices) : machine.Tally [] behind := by
  refine of_given (.of_defines (by rw [hh]) (by simp [hh]) (by simp [hh])) ?_ hn
  intro id name _ hd
  rw [hh] at hd
  exact .inl hd

/-- The accounts of one stretch and the next one add up. -/
theorem trans {first second third : Machine} {made more : List Origin}
    (h : first.Tally made second) (h' : second.Tally more third) :
    first.Tally (made ++ more) third := by
  obtain ⟨locals, added, hnodup, hmem, hnotices, hnames⟩ := h.ledger
  obtain ⟨locals', added', hnodup', hmem', hnotices', hnames'⟩ := h'.ledger
  refine ⟨h.grows.trans h'.grows, locals ++ locals', added ++ added', ?_, ?_, ?_, ?_⟩
  · refine List.nodup_append.mpr ⟨hnodup, hnodup', ?_⟩
    rintro ⟨id, name⟩ hm other hm' rfl
    -- What the first account lists is there when the second one begins.
    exact ((hmem' id name).mp hm').fresh (.inl ((hmem id name).mp hm).bound)
  · intro id name
    rw [List.mem_append, hmem, hmem', h.grows.bindsAnew_append h'.grows]
  · rw [hnotices', hnotices, List.append_assoc]
  · rw [List.map_append, List.map_append, hnames, hnames']

/-- A frame that binds what its origin declares needs no account. -/
theorem push {origin : Origin} {bindings : Bindings}
    (h : ∀ name, (List.lookup name bindings).isSome = true ↔ origin.Declares name) :
    machine.Tally [origin] (machine.pushFrame (origin.map Block.frame) bindings).2 := by
  have hdefines : ∀ id name,
      (machine.heap.push ⟨origin.map Block.frame, bindings⟩).defines id name = true ↔
        machine.Given [origin] id name := by
    intro id name
    have hdeclared : Declared machine.heap.size [origin] id name ↔
        id = machine.heap.size ∧ origin.Declares name := by
      simp [Declared, madeFor_singleton, and_assoc]
    rw [Given, hdeclared, Heap.defines, Heap.frame?_push]
    by_cases hid : id = machine.heap.size
    · subst hid
      have hold : machine.heap.defines machine.heap.size name = false := by
        rw [Bool.eq_false_iff]
        intro hd
        exact Nat.lt_irrefl _ (Heap.lt_size_of_defines hd)
      simp [Frame.defines, h name, hold]
    · simp [hid, Heap.defines]
  refine of_given ⟨by simp [pushFrame], ?_, ?_, fun id name => (hdefines id name).mpr⟩
    (fun id name _ => (hdefines id name).mp) rfl
  · intro id hid
    have hne : id ≠ machine.heap.size := by omega
    simp [pushFrame, Heap.parent?, Heap.frame?_push, hne]
  · intro id other hmade
    obtain ⟨rfl, rfl⟩ := madeFor_singleton.mp hmade
    simp [pushFrame, Heap.parent?]

section

variable {id : FrameId} (hid : id < machine.heap.size) (name : String) (value : Value)

include hid

theorem init_grows (notices : List Notice) :
    machine.Grows [] { machine with heap := machine.heap.init id name value, notices } :=
  .of_defines (by simp) (fun other => Heap.parent?_init id other name value)
    fun other asked hd => (Heap.defines_init hid name value other asked).mpr (.inl hd)

/-- Binding a name needs no account if the frame binds it already or is a root frame. -/
theorem init_quiet
    (h : machine.heap.defines id name = true ∨ machine.heap.isRoot id = true) :
    machine.Tally [] { machine with heap := machine.heap.init id name value } := by
  refine of_given (init_grows hid name value machine.notices) ?_ rfl
  intro other asked hinner hd
  rcases (Heap.defines_init hid name value other asked).mp hd with hd | ⟨rfl, rfl⟩
  · exact .inl hd
  · rw [Heap.isRoot_init] at hinner
    rcases h with hd | hroot
    · exact .inl hd
    · simp [hroot] at hinner

/-- Otherwise a notice accounts for the name. -/
theorem init_remarked (hd : machine.heap.defines id name = false)
    (hroot : machine.heap.isRoot id = false) (span : Span) :
    machine.Tally [] { machine with
      heap := machine.heap.init id name value
      notices := machine.notices ++ [.implicitDeclaration name span] } := by
  refine ⟨init_grows hid name value _, [(id, name)], [.implicitDeclaration name span], by simp, ?_,
    rfl, rfl⟩
  intro other asked
  have hdefines := Heap.defines_init hid name value other asked
  rw [List.mem_singleton, Prod.mk.injEq]
  constructor
  · rintro ⟨rfl, rfl⟩
    refine ⟨?_, hdefines.mpr (.inr ⟨rfl, rfl⟩), by simp [given_nil, hd]⟩
    rw [Heap.isRoot_init, hroot]
  · intro ⟨_, hbound, hfresh⟩
    exact (hdefines.mp hbound).resolve_left fun hd => hfresh (.inl hd)

end

/-- An assignment gives a notice exactly if it makes an implicit local. -/
theorem store (hm : machine.heap.WellFormed) {id : FrameId} (hid : id < machine.heap.size)
    (name : String) (span : Span) (value : Value) :
    machine.Tally [] (machine.store id name span value) := by
  cases hn : machine.heap.nearest? id name with
  | some holder =>
      have hholder : machine.heap.defines holder name = true :=
        ((Heap.nearest?_eq_some_iff hm).mp hn).defines
      rw [machine.store_of_nearest hn]
      exact init_quiet (Heap.lt_size_of_defines hholder) name value (.inl hholder)
  | none =>
      rw [machine.store_of_none hn]
      by_cases hroot : machine.heap.isRoot id = true
      · rw [if_pos hroot]
        exact init_quiet hid name value (.inr hroot)
      · rw [if_neg hroot]
        exact init_remarked hid name value (Heap.nearest?_none_defines hn) (by simpa using hroot)
          span

end Machine.Tally

theorem tally_lawful : Passage.Lawful Machine.Tally where
  still := .still
  trans := .trans
  store hm hid name span value := .store hm hid name span value
  enter := by
    intro machine block arguments _ hcount
    refine @Machine.Tally.push machine (some block) _ fun name => ?_
    rw [Message.isSome_lookup_callBindings hcount]
    simp [Origin.Declares]
  root := by
    intro machine _
    exact @Machine.Tally.push machine none [] fun name => by simp [Origin.Declares]

/-! ### Implicit locals -/

/-- A frame that is no root frame binds a name in the end which it did not bind before, if it was
there before, and which its block does not declare, if it was made for a block since. -/
structure ImplicitLocal (before : Machine) (made : List Origin) (after : Machine) (id : FrameId)
    (name : String) : Prop where
  inner : after.heap.isRoot id = false
  bound : after.heap.defines id name = true
  fresh : id < before.heap.size ∧ before.heap.defines id name = false ∨
    ∃ block, MadeFor before.heap.size made id (some block) ∧
      name ∉ block.arguments ∧ name ∉ block.temporaries

theorem Machine.Grows.implicitLocal_iff {before after : Machine} {made : List Origin}
    (h : before.Grows made after) {id : FrameId} {name : String} :
    ImplicitLocal before made after id name ↔ before.BindsAnew made after id name := by
  constructor
  · rintro ⟨hinner, hbound, ⟨hid, hd⟩ | ⟨block, hmade, ha, ht⟩⟩
    · refine ⟨hinner, hbound, ?_⟩
      rintro (hg | hg)
      · simp [hd] at hg
      · exact absurd hg.le (Nat.not_le_of_lt hid)
    · refine ⟨hinner, hbound, ?_⟩
      rintro (hg | ⟨origin, hmade', literal, hliteral, hname⟩)
      · exact absurd (Heap.lt_size_of_defines hg) (Nat.not_lt_of_le hmade.le)
      · obtain rfl := hmade.unique hmade'
        obtain rfl := Option.some.inj hliteral
        exact hname.elim ht ha
  · intro ⟨hinner, hbound, hfresh⟩
    refine ⟨hinner, hbound, ?_⟩
    by_cases hid : id < before.heap.size
    · exact .inl ⟨hid, Bool.eq_false_iff.mpr fun hd => hfresh (.inl hd)⟩
    · have hlt : id < before.heap.size + made.length := h.size ▸ Heap.lt_size_of_defines hbound
      obtain ⟨origin, hmade⟩ := MadeFor.exists_of_lt (Nat.le_of_not_lt hid) hlt
      cases origin with
      | none =>
          have hparent := h.new id none hmade
          simp [Heap.isRoot_eq, hparent] at hinner
      | some block =>
          refine .inr ⟨block, hmade, ?_, ?_⟩
          · exact fun ha => hfresh (.inr ⟨some block, hmade, block, rfl, .inr ha⟩)
          · exact fun ht => hfresh (.inr ⟨some block, hmade, block, rfl, .inl ht⟩)

theorem Evaluator.assignment_of_ok {eval : Evaluator} {node target source : Node}
    (ht : node.child? 0 = some target) (hs : node.child? 1 = some source) {frame : FrameId}
    {machine behind : Machine} {value : Value}
    (he : eval source frame machine = .ok value behind) :
    assignment eval node frame machine =
      .ok value (behind.store frame target.textOrEmpty target.span value) := by
  unfold assignment
  rw [ht, hs]
  change (eval source frame >>= _) machine = _
  rw [Eval.bind_of_ok he, Eval.bind_of_ok (Eval.store_apply _ _ _ _ behind)]
  rfl

/-- The notices that an evaluation gives name its implicit locals, one notice for each. The origins
of frames are those that traced evaluation takes down. -/
theorem implicit_declarations_accounted {machine : Machine} (hm : machine.heap.WellFormed)
    (depth : Nat) (tree : Option Node) {frame : Option FrameId}
    (hf : ∀ id ∈ frame, id < machine.heap.size) :
    (∃ made behind, Eval.left (evaluate depth tree frame machine) = behind ∧
      Traced.evaluate depth tree frame machine = (evaluate depth tree frame machine, made) ∧
      behind.heap.size = machine.heap.size + made.length ∧
      (∀ id origin, MadeFor machine.heap.size made id origin →
        behind.heap.parent? id = some (origin.map Block.frame)) ∧
      ∃ (locals : List (FrameId × String)) (added : List Notice),
        locals.Nodup ∧
        (∀ id name, (id, name) ∈ locals ↔ ImplicitLocal machine made behind id name) ∧
        behind.notices = machine.notices ++ added ∧
        added.map Notice.declared? = locals.map fun entry => some entry.2) ∧
    ∀ (eval : Evaluator) (node target source : Node) (id : FrameId) (start stop : Machine)
      (value : Value), node.child? 0 = some target → node.child? 1 = some source →
      eval source id start = .ok value stop →
      (stop.heap.nearest? id target.textOrEmpty).isSome = true ∨ stop.heap.isRoot id = true →
      (Eval.left (Evaluator.assignment eval node id start)).notices = stop.notices := by
  refine ⟨?_, ?_⟩
  · obtain ⟨hsame, htally⟩ := tally_lawful.evaluate_traced hm depth tree hf
    obtain ⟨hgrows, locals, added, hnodup, hmem, hnotices, hnames⟩ := htally
    refine ⟨_, _, rfl, Prod.ext hsame rfl, hgrows.size, hgrows.new, locals, added, hnodup, ?_,
      hnotices, hnames⟩
    intro id name
    rw [hmem, hgrows.implicitLocal_iff]
  · intro eval node target source id start stop value ht hs he hknown
    rw [Evaluator.assignment_of_ok ht hs he]
    cases hn : stop.heap.nearest? id target.textOrEmpty with
    | some holder =>
        rw [Eval.left, stop.store_of_nearest hn]
    | none =>
        have hroot : stop.heap.isRoot id = true := by simpa [hn] using hknown
        rw [Eval.left, stop.store_of_none hn, if_pos hroot]

/-- Of the names that the block uses, one is declared, one is new in its frame, and one is bound in
the root frame by then. -/
theorem implicit_declarations_accounted_in_call :
    let tree := (parseProgram "y := 'r'. [:a | b := a. y := b. b := y] value: 's'").toOption.bind
      Parsed.program
    let behind := Eval.left (evaluate 20 tree (some 0) .initial)
    behind.notices.map Notice.declared? = [some "b"] ∧
      ∃ made : List Origin, made.map (Option.map Block.arguments) = [some ["a"]] ∧
        ∃ id, ∀ other name, ImplicitLocal .initial made behind other name ↔
          other = id ∧ name = "b" := by
  intro tree behind
  have hnotices : behind.notices.map Notice.declared? = [some "b"] := by decide +kernel
  have hmade : (Traced.evaluate 20 tree (some 0) .initial).2.map (Option.map Block.arguments) =
      [some ["a"]] := by decide +kernel
  have hframe : ∀ id ∈ some 0, id < Machine.initial.heap.size := by
    simp [Machine.initial, Machine.pushFrame]
  obtain ⟨⟨made, last, hlast, htraced, -, -, locals, added, hnodup, hmem, hadded, hnames⟩, -⟩ :=
    implicit_declarations_accounted Heap.wellFormed_initial 20 tree hframe
  rw [htraced] at hmade
  obtain rfl : behind = last := hlast
  refine ⟨hnotices, made, hmade, ?_⟩
  have hlocals : locals.map (fun entry => some entry.2) = [some "b"] := by
    rw [← hnames, ← hnotices, hadded]
    rfl
  obtain ⟨⟨id, name⟩, rest, rfl, hname, hrest⟩ := List.map_eq_cons_iff.mp hlocals
  obtain rfl := List.map_eq_nil_iff.mp hrest
  obtain rfl : name = "b" := Option.some.inj hname
  refine ⟨id, fun other asked => ?_⟩
  rw [← hmem, List.mem_singleton, Prod.mk.injEq]

end MiniSmalltalk
