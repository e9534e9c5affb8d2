import MiniSmalltalk.Proofs.Object.Resolution

/-! # Regions of a heap

A region is closed if nothing in it leads out of it: neither a parent nor a block that one of its
frames binds. Whoever starts in a closed region reads and changes no frame outside, so these
frames could as well be others. -/

namespace MiniSmalltalk

/-- A block has been evaluated in one of the frames of a region. -/
def Value.CapturedIn (region : FrameId → Prop) : Value → Prop
  | .block literal => region literal.frame
  | _ => True

namespace Heap

/-- The frames to which parents and blocks lead from some frames. -/
inductive Reaches (heap : Heap) (roots : FrameId → Prop) : FrameId → Prop where
  | root {id : FrameId} : roots id → Reaches heap roots id
  | parent {id above : FrameId} {frame : Frame} : Reaches heap roots id →
      heap.frame? id = some frame → frame.parent = some above → Reaches heap roots above
  | captured {id : FrameId} {frame : Frame} {name : String} {literal : Block} :
      Reaches heap roots id → heap.frame? id = some frame →
      (name, .block literal) ∈ frame.bindings → Reaches heap roots literal.frame

/-- Nothing leads out of a region, and all frames to come belong to it. -/
structure Closed (region : FrameId → Prop) (heap : Heap) : Prop where
  fresh : ∀ id, heap.size ≤ id → region id
  parent : ∀ id frame, heap.frame? id = some frame → region id →
    ∀ above ∈ frame.parent, region above
  captured : ∀ id frame, heap.frame? id = some frame → region id →
    frame.bindings.Holding (Value.CapturedIn region)

/-- Two heaps have the same frames outside a region. -/
structure SameOutside (region : FrameId → Prop) (before after : Heap) : Prop where
  size_le : before.size ≤ after.size
  frame : ∀ id, ¬ region id → after.frame? id = before.frame? id

/-- A heap whose frames outside a region are those of another one. -/
def graft (region : FrameId → Prop) [DecidablePred region] (other heap : Heap) : Heap :=
  ⟨heap.frames.mapIdx fun id frame =>
    if region id then frame else (other.frame? id).getD frame⟩

/-- What can be reached and what is yet to come is a closed region. -/
theorem closed_reaches (heap : Heap) (roots : FrameId → Prop) :
    heap.Closed fun id => heap.Reaches roots id ∨ heap.size ≤ id := by
  have hreached : ∀ {id frame}, heap.frame? id = some frame →
      heap.Reaches roots id ∨ heap.size ≤ id → heap.Reaches roots id := by
    intro id frame hf hid
    exact hid.resolve_right (Nat.not_le_of_lt (lt_size_of_frame? hf))
  refine ⟨fun id hid => .inr hid, ?_, ?_⟩
  · intro id frame hf hid above ha
    exact .inl ((hreached hf hid).parent hf ha)
  · rintro id frame hf hid ⟨name, value⟩ hm
    cases value with
    | nil | string | number => trivial
    | block literal => exact .inl ((hreached hf hid).captured hf hm)

variable {region : FrameId → Prop} {heap : Heap}

/-! ### Closed regions -/

namespace Closed

variable (h : heap.Closed region)

include h

theorem push {frame : Frame} (hp : ∀ above ∈ frame.parent, region above)
    (hb : frame.bindings.Holding (Value.CapturedIn region)) :
    (heap.push frame).Closed region := by
  refine ⟨fun id hid => h.fresh id ?_, ?_, ?_⟩
  · rw [size_push] at hid
    exact Nat.le_of_succ_le hid
  · intro id found hf hid
    rcases frame?_push_inv hf with ⟨-, rfl⟩ | hold
    · exact hp
    · exact h.parent id found hold hid
  · intro id found hf hid
    rcases frame?_push_inv hf with ⟨-, rfl⟩ | hold
    · exact hb
    · exact h.captured id found hold hid

theorem init {value : Value} (hv : value.CapturedIn region) (id : FrameId) (name : String) :
    (heap.init id name value).Closed region := by
  refine ⟨?_, ?_, ?_⟩
  · rw [size_init]
    exact h.fresh
  · intro other found hf hother
    obtain ⟨frame, hframe, hparent⟩ := frame?_init_inv hf
    rw [hparent]
    exact h.parent other frame hframe hother
  · intro other found hf hother
    by_cases heq : other = id
    · subst heq
      rw [frame?_init_self] at hf
      obtain ⟨frame, hframe, rfl⟩ := Option.map_eq_some_iff.mp hf
      exact (h.captured other frame hframe hother).bind hv name
    · rw [frame?_init_of_ne heq] at hf
      exact h.captured other found hf hother

/-- The way up from a frame of a closed region stays inside. -/
theorem nearestUpTo {id holder : FrameId} (hid : region id) {name : String} {limit : Nat}
    (hn : heap.nearestUpTo name limit id = some holder) : region holder := by
  induction limit generalizing id with
  | zero => cases hn
  | succ limit ih =>
      rw [Heap.nearestUpTo] at hn
      cases hframe : heap.frame? id with
      | none => simp [hframe] at hn
      | some frame =>
          simp only [hframe] at hn
          split at hn
          · cases hn
            exact hid
          · cases hparent : frame.parent with
            | none => simp [hparent] at hn
            | some parent =>
                simp only [hparent] at hn
                exact ih (h.parent id frame hframe hid parent hparent) hn

theorem nearest? {id holder : FrameId} (hid : region id) {name : String}
    (hn : heap.nearest? id name = some holder) : region holder :=
  h.nearestUpTo hid hn

theorem set {value : Value} (hv : value.CapturedIn region) (id : FrameId) (name : String) :
    (heap.set id name value).2.Closed region := by
  unfold Heap.set
  split
  · exact h.init hv _ name
  · exact h.init hv id name

theorem get? {id : FrameId} (hid : region id) {name : String} {value : Value}
    (hg : heap.get? id name = some value) : value.CapturedIn region := by
  obtain ⟨holder, hn, hl⟩ := Option.bind_eq_some_iff.mp hg
  cases hf : heap.frame? holder with
  | none => simp [bindings, hf] at hl
  | some frame =>
      simp only [bindings, hf, Option.map_some, Option.getD_some] at hl
      exact (h.captured holder frame hf (h.nearest? hid hn)).lookup hl

end Closed

/-! ### Frames outside -/

namespace SameOutside

theorem refl (heap : Heap) : SameOutside region heap heap := ⟨Nat.le_refl _, fun _ _ => rfl⟩

theorem trans {first second third : Heap} (h : SameOutside region first second)
    (h' : SameOutside region second third) : SameOutside region first third :=
  ⟨Nat.le_trans h.size_le h'.size_le, fun id hid => (h'.frame id hid).trans (h.frame id hid)⟩

theorem push (h : heap.Closed region) (frame : Frame) :
    SameOutside region heap (heap.push frame) := by
  refine ⟨by simp, fun id hid => frame?_push_of_lt ?_ frame⟩
  exact Nat.lt_of_not_le fun hle => hid (h.fresh id hle)

theorem init {id : FrameId} (hid : region id) (name : String) (value : Value) :
    SameOutside region heap (heap.init id name value) := by
  refine ⟨by simp, fun other hother => frame?_init_of_ne ?_ heap name value⟩
  rintro rfl
  exact hother hid

theorem set (h : heap.Closed region) {id : FrameId} (hid : region id) (name : String)
    (value : Value) : SameOutside region heap (heap.set id name value).2 := by
  unfold Heap.set
  cases hn : heap.nearest? id name with
  | none => exact init hid name value
  | some holder => exact init (h.nearest? hid hn) name value

end SameOutside

/-! ### Other frames outside -/

section Graft

variable [DecidablePred region] (other : Heap)

@[simp] theorem size_graft : (graft region other heap).size = heap.size := by
  simp [graft, size]

theorem frame?_graft (id : FrameId) :
    (graft region other heap).frame? id = (heap.frame? id).map fun frame =>
      if region id then frame else (other.frame? id).getD frame := by
  simp [graft, frame?]

theorem frame?_graft_of_region {id : FrameId} (hid : region id) :
    (graft region other heap).frame? id = heap.frame? id := by
  simp [frame?_graft, hid]

theorem ext_frame? {first second : Heap} (h : ∀ id, first.frame? id = second.frame? id) :
    first = second := by
  obtain ⟨frames⟩ := first
  obtain ⟨others⟩ := second
  exact congrArg Heap.mk (Array.ext_getElem? h)

/-- A heap is the graft of another one that agrees with it inside a region. -/
theorem graft_eq {other : Heap} (hs : other.size = heap.size)
    (h : ∀ id, region id → other.frame? id = heap.frame? id) : graft region other heap = other := by
  apply ext_frame?
  intro id
  rw [frame?_graft]
  by_cases hid : region id
  · simp [hid, h id hid]
  · by_cases hlt : id < heap.size
    · have hother : id < other.size := hs ▸ hlt
      rw [frame?, frame?, Array.getElem?_eq_getElem hlt, Array.getElem?_eq_getElem hother]
      simp [hid]
    · have hle : heap.size ≤ id := Nat.le_of_not_lt hlt
      have hother : other.size ≤ id := hs ▸ hle
      rw [frame?, frame?, Array.getElem?_eq_none hle, Array.getElem?_eq_none hother]
      rfl

theorem graft_push (hsize : region heap.size) (frame : Frame) :
    graft region other (heap.push frame) = (graft region other heap).push frame := by
  have hsize' : region heap.frames.size := hsize
  simp [graft, push, hsize']

theorem graft_init {id : FrameId} (hid : region id) (name : String) (value : Value) :
    graft region other (heap.init id name value) =
      (graft region other heap).init id name value := by
  apply ext_frame?
  intro asked
  rw [frame?_graft]
  by_cases heq : asked = id
  · subst heq
    simp [frame?_init_self, frame?_graft, hid, Function.comp_def]
  · rw [frame?_init_of_ne heq, frame?_init_of_ne heq, frame?_graft]

variable (h : heap.Closed region) {id : FrameId} (hid : region id)

include h hid

theorem nearestUpTo_graft (name : String) (limit : Nat) :
    (graft region other heap).nearestUpTo name limit id = heap.nearestUpTo name limit id := by
  induction limit generalizing id with
  | zero => rfl
  | succ limit ih =>
      rw [nearestUpTo, nearestUpTo, frame?_graft_of_region other hid]
      cases hframe : heap.frame? id with
      | none => rfl
      | some frame =>
          cases hparent : frame.parent with
          | none => simp [hparent]
          | some parent => simp [hparent, ih (h.parent id frame hframe hid parent hparent)]

theorem nearest?_graft (name : String) :
    (graft region other heap).nearest? id name = heap.nearest? id name :=
  nearestUpTo_graft other h hid name (id + 1)

theorem get?_graft (name : String) :
    (graft region other heap).get? id name = heap.get? id name := by
  unfold Heap.get?
  rw [nearest?_graft other h hid]
  cases hn : heap.nearest? id name with
  | none => rfl
  | some holder =>
      simp [bindings, frame?_graft_of_region other (h.nearest? hid hn)]

theorem set_graft (name : String) (value : Value) :
    (graft region other heap).set id name value =
      ((heap.set id name value).1, graft region other (heap.set id name value).2) := by
  unfold Heap.set
  rw [nearest?_graft other h hid]
  cases hn : heap.nearest? id name with
  | none => simp [graft_init other hid]
  | some holder => simp [graft_init other (h.nearest? hid hn)]

omit h in
theorem isRoot_graft : (graft region other heap).isRoot id = heap.isRoot id := by
  rw [isRoot, isRoot, frame?_graft_of_region other hid]

end Graft

end Heap

end MiniSmalltalk
