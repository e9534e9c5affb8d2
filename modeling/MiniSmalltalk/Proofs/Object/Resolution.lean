import MiniSmalltalk.Proofs.Object.Holding

/-! # Resolving names

A name resolves from a frame to the nearest frame that binds it: the frame itself, its parent,
and so on. In a well-formed heap every frame has a way up that comes to an end. A new frame and
an assignment leave all names where they have resolved to before. -/

namespace MiniSmalltalk

/-- A block has been evaluated in one of the first frames. -/
def Value.Within (count : Nat) : Value → Prop
  | .block literal => literal.frame < count
  | _ => True

namespace Heap

/-- Parents are older than their children. -/
def Ordered (heap : Heap) : Prop :=
  ∀ id frame, heap.frame? id = some frame → ∀ above ∈ frame.parent, above < id

/-- Parents are older than their children, and blocks capture frames that exist. -/
structure WellFormed (heap : Heap) : Prop where
  parent : ∀ id frame, heap.frame? id = some frame → ∀ above ∈ frame.parent, above < id
  captured : heap.Holding (Value.Within heap.size)

/-- A name resolves from a frame to the nearest one that binds it. -/
inductive Resolves (heap : Heap) (name : String) : FrameId → FrameId → Prop where
  | here {id : FrameId} {frame : Frame} : heap.frame? id = some frame →
      frame.defines name = true → Resolves heap name id id
  | above {id parent holder : FrameId} {frame : Frame} : heap.frame? id = some frame →
      frame.defines name = false → frame.parent = some parent →
      Resolves heap name parent holder → Resolves heap name id holder

/-! ### Frames that exist -/

theorem lt_size_of_frame? {heap : Heap} {id : FrameId} {frame : Frame}
    (h : heap.frame? id = some frame) : id < heap.size := by
  rw [frame?, Array.getElem?_eq_some_iff] at h
  exact h.1

theorem frame?_push_of_some {heap : Heap} {id : FrameId} {found : Frame}
    (h : heap.frame? id = some found) (frame : Frame) :
    (heap.push frame).frame? id = some found := by
  rw [frame?_push_of_lt (lt_size_of_frame? h), h]

/-- A frame of a heap with one more frame is the new one or one of the others. -/
theorem frame?_push_inv {heap : Heap} {id : FrameId} {frame found : Frame}
    (h : (heap.push frame).frame? id = some found) :
    id = heap.size ∧ found = frame ∨ heap.frame? id = some found := by
  simp only [push, frame?, Array.getElem?_push] at h
  split at h
  · rename_i hid
    cases h
    exact .inl ⟨hid, rfl⟩
  · exact .inr h

/-- Binding a name keeps frames and their parents. -/
theorem frame?_init_inv {heap : Heap} {id other : FrameId} {name : String} {value : Value}
    {found : Frame} (h : (heap.init id name value).frame? other = some found) :
    ∃ frame, heap.frame? other = some frame ∧ found.parent = frame.parent := by
  by_cases heq : other = id
  · subst heq
    rw [frame?_init_self] at h
    obtain ⟨frame, hframe, rfl⟩ := Option.map_eq_some_iff.mp h
    exact ⟨frame, hframe, rfl⟩
  · rw [frame?_init_of_ne heq] at h
    exact ⟨found, h, rfl⟩

/-- A frame behind a binding: what it defines besides, it has defined before. -/
theorem frame?_init_of_some {heap : Heap} {other : FrameId} {frame : Frame}
    (h : heap.frame? other = some frame) (id : FrameId) (name : String) (value : Value) :
    ∃ found, (heap.init id name value).frame? other = some found ∧
      found.parent = frame.parent ∧
      ∀ asked, found.defines asked = (frame.defines asked || (other == id && asked == name)) := by
  by_cases heq : other = id
  · subst heq
    refine ⟨{ frame with bindings := frame.bindings.bind name value }, ?_, rfl, ?_⟩
    · rw [frame?_init_self, h]
      rfl
    intro asked
    by_cases hname : asked = name
    · subst hname
      simp [Frame.defines, Bindings.lookup_bind_self]
    · simp [Frame.defines, Bindings.lookup_bind_of_ne hname, hname]
  · refine ⟨frame, by rw [frame?_init_of_ne heq, h], rfl, ?_⟩
    simp [heq]

theorem bindings_of_frame? {heap : Heap} {id : FrameId} {frame : Frame}
    (h : heap.frame? id = some frame) : heap.bindings id = frame.bindings := by
  simp [bindings, h]

theorem lookup_init_self {heap : Heap} {id : FrameId} (h : id < heap.size) (name : String)
    (value : Value) : ((heap.init id name value).bindings id).lookup name = some value := by
  have hframe : heap.frame? id = some heap.frames[id] := Array.getElem?_eq_getElem h
  simp [bindings, frame?_init_self, hframe, Bindings.lookup_bind_self]

/-! ### The nearest frame -/

theorem Ordered.nearestUpTo_eq_some_iff {heap : Heap} (h : heap.Ordered) {name : String}
    {limit : Nat} {id holder : FrameId} (hl : id < limit) :
    heap.nearestUpTo name limit id = some holder ↔ heap.Resolves name id holder := by
  induction limit generalizing id with
  | zero => exact absurd hl (Nat.not_lt_zero id)
  | succ limit ih =>
      rw [nearestUpTo]
      cases hframe : heap.frame? id with
      | none =>
          refine iff_of_false (by simp) ?_
          intro hr
          cases hr with
          | here hf _ => simp [hframe] at hf
          | above hf _ _ _ => simp [hframe] at hf
      | some frame =>
          by_cases hd : frame.defines name = true
          · simp only [hd, if_true, Option.some.injEq]
            constructor
            · rintro rfl
              exact .here hframe hd
            · intro hr
              cases hr with
              | here _ _ => rfl
              | above hf hn _ _ =>
                  obtain rfl := Option.some.inj (hframe.symm.trans hf)
                  simp [hd] at hn
          · simp only [hd, Bool.false_eq_true, if_false]
            have hnot : frame.defines name = false := by simpa using hd
            cases hparent : frame.parent with
            | none =>
                refine iff_of_false (by simp) ?_
                intro hr
                cases hr with
                | here hf hn =>
                    obtain rfl := Option.some.inj (hframe.symm.trans hf)
                    exact hd hn
                | above hf _ hp _ =>
                    obtain rfl := Option.some.inj (hframe.symm.trans hf)
                    simp [hparent] at hp
            | some parent =>
                have hlt : parent < id := h id frame hframe parent hparent
                rw [ih (Nat.lt_of_lt_of_le hlt (Nat.le_of_lt_succ hl))]
                constructor
                · exact .above hframe hnot hparent
                · intro hr
                  cases hr with
                  | here hf hn =>
                      obtain rfl := Option.some.inj (hframe.symm.trans hf)
                      exact absurd hn hd
                  | above hf _ hp hr =>
                      obtain rfl := Option.some.inj (hframe.symm.trans hf)
                      obtain rfl := Option.some.inj (hparent.symm.trans hp)
                      exact hr

/-- Where parents are older, the search for the nearest frame is not cut short. -/
theorem Ordered.nearest?_eq_some_iff {heap : Heap} (h : heap.Ordered) {name : String}
    {id holder : FrameId} :
    heap.nearest? id name = some holder ↔ heap.Resolves name id holder :=
  h.nearestUpTo_eq_some_iff (Nat.lt_succ_self id)

theorem nearestUpTo_eq_some_iff {heap : Heap} (h : heap.WellFormed) {name : String} {limit : Nat}
    {id holder : FrameId} (hl : id < limit) :
    heap.nearestUpTo name limit id = some holder ↔ heap.Resolves name id holder :=
  Ordered.nearestUpTo_eq_some_iff h.parent hl

theorem nearest?_eq_some_iff {heap : Heap} (h : heap.WellFormed) {name : String}
    {id holder : FrameId} :
    heap.nearest? id name = some holder ↔ heap.Resolves name id holder :=
  Ordered.nearest?_eq_some_iff h.parent

theorem Resolves.defines {heap : Heap} {name : String} {id holder : FrameId}
    (h : heap.Resolves name id holder) : heap.defines holder name = true := by
  induction h with
  | here hf hd => simp [Heap.defines, hf, hd]
  | above _ _ _ _ ih => exact ih

/-! ### Well-formed heaps -/

namespace Ordered

variable {heap : Heap} (h : heap.Ordered)

include h

theorem push {frame : Frame} (hp : ∀ above ∈ frame.parent, above < heap.size) :
    (heap.push frame).Ordered := by
  intro id found hf
  rcases frame?_push_inv hf with ⟨rfl, rfl⟩ | hold
  · exact hp
  · exact h id found hold

theorem init (id : FrameId) (name : String) (value : Value) :
    (heap.init id name value).Ordered := by
  intro other found hf
  obtain ⟨frame, hframe, hparent⟩ := frame?_init_inv hf
  rw [hparent]
  exact h other frame hframe

end Ordered

namespace WellFormed

variable {heap : Heap} (h : heap.WellFormed)

include h

theorem push {frame : Frame} (hp : ∀ above ∈ frame.parent, above < heap.size)
    (hb : frame.bindings.Holding (Value.Within heap.size)) : (heap.push frame).WellFormed := by
  have hmono : ∀ value : Value, value.Within heap.size → value.Within (heap.push frame).size := by
    intro value hv
    cases value with
    | nil | string | number => trivial
    | block literal =>
        rw [Value.Within, size_push]
        exact Nat.lt_succ_of_lt hv
  have hholding : (heap.push frame).Holding (Value.Within heap.size) := h.captured.push hb
  exact ⟨Ordered.push h.parent hp,
    fun id found hf entry hm => hmono _ (hholding id found hf entry hm)⟩

theorem init {value : Value} (hv : value.Within heap.size) (id : FrameId) (name : String) :
    (heap.init id name value).WellFormed := by
  refine ⟨Ordered.init h.parent id name value, ?_⟩
  rw [size_init]
  exact h.captured.init hv id name

theorem set {value : Value} (hv : value.Within heap.size) (id : FrameId) (name : String) :
    (heap.set id name value).2.WellFormed := by
  unfold Heap.set
  split
  · exact h.init hv _ name
  · exact h.init hv id name

end WellFormed

theorem wellFormed_initial : Machine.initial.heap.WellFormed := by
  refine ⟨?_, Machine.holding_initial⟩
  intro id frame hf
  rcases frame?_push_inv hf with ⟨-, rfl⟩ | hold
  · simp
  · simp [Machine.empty, empty, frame?] at hold

/-! ### Names stay where they are -/

theorem defines_iff {heap : Heap} {id : FrameId} {name : String} :
    heap.defines id name = true ↔
      ∃ frame, heap.frame? id = some frame ∧ frame.defines name = true := by
  cases hf : heap.frame? id <;> simp [Heap.defines, hf]

/-- All frames are still there, with what they bind, and all names resolve as before. -/
structure Stable (before after : Heap) : Prop where
  size_le : before.size ≤ after.size
  defines : ∀ id name, before.defines id name = true → after.defines id name = true
  resolves : ∀ name id holder, before.Resolves name id holder → after.Resolves name id holder

namespace Stable

theorem refl (heap : Heap) : heap.Stable heap :=
  ⟨Nat.le_refl _, fun _ _ hd => hd, fun _ _ _ hr => hr⟩

theorem trans {first second third : Heap} (h : first.Stable second) (h' : second.Stable third) :
    first.Stable third :=
  ⟨Nat.le_trans h.size_le h'.size_le, fun id name hd => h'.defines id name (h.defines id name hd),
    fun name id holder hr => h'.resolves name id holder (h.resolves name id holder hr)⟩

/-- Nothing that exists already has a new frame above it. -/
theorem push (heap : Heap) (frame : Frame) : heap.Stable (heap.push frame) := by
  refine ⟨by simp, ?_, ?_⟩
  · intro id name hd
    obtain ⟨found, hf, hd⟩ := defines_iff.mp hd
    exact defines_iff.mpr ⟨found, frame?_push_of_some hf frame, hd⟩
  · intro name id holder hr
    induction hr with
    | here hf hd => exact .here (frame?_push_of_some hf frame) hd
    | above hf hd hp _ ih => exact .above (frame?_push_of_some hf frame) hd hp ih

/-- A frame may bind a name that it binds already, or one that does not resolve from it. -/
theorem init {heap : Heap} {id : FrameId} {name : String}
    (h : heap.defines id name = true ∨ ∀ holder, ¬ heap.Resolves name id holder)
    (value : Value) : heap.Stable (heap.init id name value) := by
  refine ⟨by simp, ?_, ?_⟩
  · intro other asked hd
    obtain ⟨frame, hf, hd⟩ := defines_iff.mp hd
    obtain ⟨found, hfound, -, hdefines⟩ := frame?_init_of_some hf id name value
    exact defines_iff.mpr ⟨found, hfound, by simp [hdefines, hd]⟩
  · intro asked start holder hr
    induction hr with
    | @here start frame hf hd =>
        obtain ⟨found, hfound, -, hdefines⟩ := frame?_init_of_some hf id name value
        exact .here hfound (by simp [hdefines, hd])
    | @above start parent holder frame hf hd hp hr ih =>
        obtain ⟨found, hfound, hparent, hdefines⟩ := frame?_init_of_some hf id name value
        -- The way up does not pass through the frame that is about to bind the name.
        have hother : (start == id && asked == name) = false := by
          rw [Bool.eq_false_iff]
          intro hsame
          obtain ⟨rfl, rfl⟩ : start = id ∧ asked = name := by simpa using hsame
          rcases h with hdef | hnone
          · obtain ⟨other, ho, hdo⟩ := defines_iff.mp hdef
            obtain rfl := Option.some.inj (hf.symm.trans ho)
            simp [hd] at hdo
          · exact hnone holder (.above hf hd hp hr)
        exact .above hfound (by simp [hdefines, hd, hother]) (hparent.trans hp) ih

/-- An assignment searches all the way up before it binds a name anew. -/
theorem set {heap : Heap} (h : heap.WellFormed) (id : FrameId) (name : String) (value : Value) :
    heap.Stable (heap.set id name value).2 := by
  unfold Heap.set
  cases hn : heap.nearest? id name with
  | some holder => exact init (.inl ((nearest?_eq_some_iff h).mp hn).defines) value
  | none =>
      refine init (.inr fun holder hr => ?_) value
      rw [(nearest?_eq_some_iff h).mpr hr] at hn
      cases hn

end Stable

end Heap

end MiniSmalltalk
