import MiniSmalltalk.Evaluation.Message

/-! # What all values of a heap have in common

A property of values that every frame respects stays so, since frames only take up the values
they are given. The names that the frame of a call binds are those the block declares. -/

namespace MiniSmalltalk

def Bindings.Holding (holds : Value → Prop) (bindings : Bindings) : Prop :=
  ∀ entry ∈ bindings, holds entry.2

def Heap.Holding (holds : Value → Prop) (heap : Heap) : Prop :=
  ∀ id frame, heap.frame? id = some frame → frame.bindings.Holding holds

variable {holds : Value → Prop}

namespace Bindings.Holding

theorem bind {bindings : Bindings} (h : bindings.Holding holds) {value : Value} (hv : holds value)
    (name : String) : (bindings.bind name value).Holding holds := by
  induction bindings with
  | nil =>
      intro entry hm
      obtain rfl := List.mem_singleton.mp hm
      exact hv
  | cons entry entries ih =>
      have htail : Bindings.Holding holds entries :=
        fun other hm => h other (List.mem_cons_of_mem _ hm)
      unfold Bindings.bind
      split
      · intro other hm
        rcases List.mem_cons.mp hm with rfl | hm
        · exact hv
        · exact htail other hm
      · intro other hm
        rcases List.mem_cons.mp hm with rfl | hm
        · exact h other (by simp)
        · exact ih htail other hm

theorem bindAll {bindings entries : Bindings} (h : bindings.Holding holds)
    (he : Bindings.Holding holds entries) : (bindings.bindAll entries).Holding holds := by
  induction entries generalizing bindings with
  | nil => exact h
  | cons entry entries ih =>
      have hbound := h.bind (he entry (by simp)) entry.1
      exact ih hbound fun other hm => he other (List.mem_cons_of_mem _ hm)

theorem lookup {bindings : Bindings} (h : bindings.Holding holds) {name : String} {value : Value}
    (hl : List.lookup name bindings = some value) : holds value := by
  induction bindings with
  | nil => simp at hl
  | cons entry entries ih =>
      rw [List.lookup_cons] at hl
      split at hl
      · cases hl
        exact h entry (by simp)
      · exact ih (fun other hm => h other (List.mem_cons_of_mem _ hm)) hl

/-- The frame of a call holds nil and the arguments. -/
theorem callBindings (block : Block) {arguments : List Value} (hnil : holds .nil)
    (h : ∀ argument ∈ arguments, holds argument) :
    (Message.callBindings block arguments).Holding holds := by
  have hnone : Bindings.Holding holds [] := by simp [Bindings.Holding]
  refine hnone.bindAll ?_
  intro entry hm
  rcases List.mem_append.mp hm with hm | hm
  · obtain ⟨name, -, rfl⟩ := List.mem_map.mp hm
    exact hnil
  · exact h entry.2 (List.of_mem_zip hm).2

end Bindings.Holding

/-! ### Names that are bound -/

namespace Bindings

theorem isSome_lookup_bind (name asked : String) (value : Value) (bindings : Bindings) :
    ((bindings.bind name value).lookup asked).isSome =
      ((List.lookup asked bindings).isSome || asked == name) := by
  by_cases h : asked = name
  · subst h
    simp [lookup_bind_self]
  · simp [lookup_bind_of_ne h, h]

theorem isSome_lookup_bindAll (asked : String) (bindings entries : Bindings) :
    ((bindings.bindAll entries).lookup asked).isSome =
      ((List.lookup asked bindings).isSome || entries.any fun entry => asked == entry.1) := by
  induction entries generalizing bindings with
  | nil => simp [bindAll]
  | cons entry entries ih =>
      have hstep := ih (bindings.bind entry.1 entry.2)
      rw [isSome_lookup_bind, Bool.or_assoc] at hstep
      exact hstep

end Bindings

/-- The frame of a call binds the temporaries and the arguments of the block. -/
theorem Message.isSome_lookup_callBindings {block : Block} {arguments : List Value}
    (h : arguments.length = block.arity) (name : String) :
    (List.lookup name (callBindings block arguments)).isSome = true ↔
      name ∈ block.temporaries ∨ name ∈ block.arguments := by
  have hzip : (block.arguments.zip arguments).map Prod.fst = block.arguments :=
    List.map_fst_zip (Nat.le_of_eq h.symm)
  have hdeclared : (block.temporaries.map (fun name => (name, Value.nil)) ++
      block.arguments.zip arguments).map Prod.fst = block.temporaries ++ block.arguments := by
    simp [hzip, Function.comp_def]
  rw [callBindings, Bindings.isSome_lookup_bindAll, ← List.mem_append, ← hdeclared]
  simp [List.any_eq_true, eq_comm (a := name)]

namespace Heap.Holding

variable {heap : Heap} (h : heap.Holding holds)

include h

theorem push {frame : Frame} (hf : frame.bindings.Holding holds) :
    (heap.push frame).Holding holds := by
  intro id found hfound
  simp only [Heap.push, frame?, Array.getElem?_push] at hfound
  split at hfound
  · cases hfound
    exact hf
  · exact h id found hfound

theorem init {value : Value} (hv : holds value) (id : FrameId) (name : String) :
    (heap.init id name value).Holding holds := by
  intro other found hfound
  by_cases heq : other = id
  · subst heq
    rw [frame?_init_self] at hfound
    obtain ⟨frame, hframe, rfl⟩ := Option.map_eq_some_iff.mp hfound
    exact (h other frame hframe).bind hv name
  · rw [frame?_init_of_ne heq] at hfound
    exact h other found hfound

theorem set {value : Value} (hv : holds value) (id : FrameId) (name : String) :
    (heap.set id name value).2.Holding holds := by
  unfold Heap.set
  split
  · exact h.init hv _ name
  · exact h.init hv id name

theorem get? {id : FrameId} {name : String} {value : Value}
    (hg : heap.get? id name = some value) : holds value := by
  obtain ⟨holder, -, hl⟩ := Option.bind_eq_some_iff.mp hg
  cases hf : heap.frame? holder with
  | none => simp [bindings, hf] at hl
  | some frame =>
      simp only [bindings, hf, Option.map_some, Option.getD_some] at hl
      exact (h holder frame hf).lookup hl

end Heap.Holding

theorem Machine.holding_initial : Machine.initial.heap.Holding holds := by
  have hempty : Heap.empty.Holding holds := by
    intro id frame hf
    simp [Heap.empty, Heap.frame?] at hf
  have hnone : (Frame.mk none []).bindings.Holding holds := by simp [Bindings.Holding]
  exact hempty.push hnone

end MiniSmalltalk
