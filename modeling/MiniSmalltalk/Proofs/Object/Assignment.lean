import MiniSmalltalk.Proofs.Object.Resolution

/-! # Assignments

An assignment writes one binding: that of the nearest frame which binds the name already, or a
new one of the frame itself. Whoever looks a name up afterwards sees the written value if the
name resolves to the frame that was written to, and what was there before in all other cases. -/

namespace MiniSmalltalk.Heap

/-- Heaps made of root frames and children of frames that exist, whose names are bound one by
one. -/
inductive Built : Heap → Prop where
  | empty : Built .empty
  | root {heap : Heap} : Built heap → Built (heap.push ⟨none, []⟩)
  | child {heap : Heap} {parent : FrameId} : Built heap → parent < heap.size →
      Built (heap.push ⟨some parent, []⟩)
  | init {heap : Heap} {id : FrameId} : Built heap → id < heap.size →
      ∀ (name : String) (value : Value), Built (heap.init id name value)
  | set {heap : Heap} {id : FrameId} : Built heap → id < heap.size →
      ∀ (name : String) (value : Value), Built (heap.set id name value).2

/-- The frame that an assignment in a frame writes to, and what it reports. -/
inductive Target (heap : Heap) (name : String) (id : FrameId) : FrameId → Binding → Prop where
  | existing {holder : FrameId} : heap.Resolves name id holder →
      Target heap name id holder .existing
  | created : (∀ holder, ¬ heap.Resolves name id holder) → Target heap name id id .created

/-- The second heap has the same frames as the first, and differs in at most one binding. -/
structure Writes (holder : FrameId) (name : String) (value : Value) (before after : Heap) :
    Prop where
  size : after.size = before.size
  parents : ∀ id, (after.frame? id).map Frame.parent = (before.frame? id).map Frame.parent
  written : (after.bindings holder).lookup name = some value
  others : ∀ id asked, (id, asked) ≠ (holder, name) →
    (after.bindings id).lookup asked = (before.bindings id).lookup asked

/-! ### Looking names up -/

theorem Built.ordered {heap : Heap} (h : heap.Built) : heap.Ordered := by
  induction h with
  | empty =>
      intro id frame hf
      simp [Heap.empty, frame?] at hf
  | root _ ih => exact ih.push (by simp)
  | child _ hp ih => exact ih.push (by simpa using hp)
  | init _ _ name value ih => exact ih.init _ name value
  | @set heap id _ _ name value ih =>
      unfold Heap.set
      split
      · exact ih.init _ name value
      · exact ih.init id name value

/-- A name has the value that it is bound to where it resolves. -/
theorem Ordered.get?_eq_some_iff {heap : Heap} (h : heap.Ordered) {id : FrameId} {name : String}
    {value : Value} :
    heap.get? id name = some value ↔
      ∃ holder, heap.Resolves name id holder ∧ (heap.bindings holder).lookup name = some value := by
  have hbind : heap.get? id name = some value ↔
      ∃ holder, heap.nearest? id name = some holder ∧
        (heap.bindings holder).lookup name = some value :=
    Option.bind_eq_some_iff
  simp only [hbind, h.nearest?_eq_some_iff]

/-! ### Binding a name in a frame -/

section

variable {heap : Heap} {id : FrameId}

theorem init_writes (hid : id < heap.size) (name : String) (value : Value) :
    heap.Writes id name value (heap.init id name value) where
  size := size_init heap id name value
  parents other := by
    by_cases h : other = id
    · subst h
      rw [frame?_init_self, Option.map_map]
      rfl
    · rw [frame?_init_of_ne h]
  written := lookup_init_self hid name value
  others other asked hne := by
    by_cases h : other = id
    · subst h
      have hasked : asked ≠ name := fun heq => hne (by rw [heq])
      have hframe : heap.frame? other = some heap.frames[other] := Array.getElem?_eq_getElem hid
      simp [bindings, frame?_init_self, hframe, Bindings.lookup_bind_of_ne hasked]
    · simp [bindings, frame?_init_of_ne h]

/-- Names resolve to frames that were not written to as they did before. -/
theorem Resolves.of_init {name : String} {value : Value} {asked : String} {start holder : FrameId}
    (h : (heap.init id name value).Resolves asked start holder)
    (hne : (holder, asked) ≠ (id, name)) : heap.Resolves asked start holder := by
  have hfound : ∀ {start : FrameId} {found : Frame},
      (heap.init id name value).frame? start = some found →
      ∃ frame, heap.frame? start = some frame ∧ found.parent = frame.parent ∧
        found.defines asked = (frame.defines asked || (start == id && asked == name)) := by
    intro start found hf
    obtain ⟨frame, hframe, hparent⟩ := frame?_init_inv hf
    obtain ⟨found', hfound', -, hdefines⟩ := frame?_init_of_some hframe id name value
    obtain rfl := Option.some.inj (hf.symm.trans hfound')
    exact ⟨frame, hframe, hparent, hdefines asked⟩
  induction h with
  | here hf hd =>
      obtain ⟨frame, hframe, -, hdefines⟩ := hfound hf
      refine .here hframe ?_
      rw [hdefines] at hd
      simpa [← Prod.mk.injEq, hne] using hd
  | above hf hd hp _ ih =>
      obtain ⟨frame, hframe, hparent, hdefines⟩ := hfound hf
      rw [hdefines, Bool.or_eq_false_iff] at hd
      exact .above hframe hd.1 (hparent ▸ hp) (ih hne)

end

/-! ### Assigning -/

section

variable {heap : Heap} (h : heap.Ordered) {id : FrameId}

include h

/-- An assignment binds the name in its target. -/
theorem Ordered.set_target (name : String) (value : Value) :
    ∃ holder, heap.Target name id holder (heap.set id name value).1 ∧
      (heap.set id name value).2 = heap.init holder name value := by
  unfold Heap.set
  cases hn : heap.nearest? id name with
  | some holder => exact ⟨holder, .existing (h.nearest?_eq_some_iff.mp hn), rfl⟩
  | none =>
      refine ⟨id, .created fun holder hr => ?_, rfl⟩
      rw [h.nearest?_eq_some_iff.mpr hr] at hn
      cases hn

end

section

variable {heap : Heap} {name : String} {id holder : FrameId} {binding : Binding}
  (ht : heap.Target name id holder binding)

include ht

theorem Target.lt_size (hid : id < heap.size) : holder < heap.size := by
  cases ht with
  | existing hr =>
      obtain ⟨frame, hf, -⟩ := defines_iff.mp hr.defines
      exact lt_size_of_frame? hf
  | created => exact hid

/-- Writing to the target leaves all names where they have resolved to. -/
theorem Target.stable (value : Value) : heap.Stable (heap.init holder name value) := by
  cases ht with
  | existing hr => exact .init (.inl hr.defines) value
  | created hnone => exact .init (.inr hnone) value

/-- The name resolves to the target once it has been written to. -/
theorem Target.resolves (hid : id < heap.size) (value : Value) :
    (heap.init holder name value).Resolves name id holder := by
  cases ht with
  | existing hr => exact (Stable.init (.inl hr.defines) value).resolves name id holder hr
  | created =>
      have hframe : heap.frame? id = some heap.frames[id] := Array.getElem?_eq_getElem hid
      obtain ⟨found, hfound, -, hdefines⟩ := frame?_init_of_some hframe id name value
      exact .here hfound (by simp [hdefines])

/-- Where a name does not resolve to what was written, it is looked up as before. -/
theorem Target.get?_eq (h : heap.Ordered) (hid : id < heap.size) (value : Value) {other : FrameId}
    {asked : String}
    (hne : ¬ (asked = name ∧ (heap.init holder name value).Resolves name other holder)) :
    (heap.init holder name value).get? other asked = heap.get? other asked := by
  have hwrites := init_writes (ht.lt_size hid) name value
  have hcell : ∀ found, (heap.init holder name value).Resolves asked other found →
      (found, asked) ≠ (holder, name) := by
    rintro found hr heq
    obtain ⟨rfl, rfl⟩ := Prod.mk.inj heq
    exact hne ⟨rfl, hr⟩
  apply Option.ext
  intro result
  rw [(h.init holder name value).get?_eq_some_iff, h.get?_eq_some_iff]
  constructor
  · rintro ⟨found, hr, hl⟩
    rw [hwrites.others found asked (hcell found hr)] at hl
    exact ⟨found, hr.of_init (hcell found hr), hl⟩
  · rintro ⟨found, hr, hl⟩
    have hr' := (ht.stable value).resolves asked other found hr
    rw [← hwrites.others found asked (hcell found hr')] at hl
    exact ⟨found, hr', hl⟩

end

/-- An assignment writes one binding, that of its target. The value is seen from the frame of the
assignment and from all frames from which the name now resolves to the target, and everything
else is looked up as before. -/
theorem assignment_writes_one_binding {heap : Heap} (h : heap.Built) {id : FrameId}
    (hid : id < heap.size) (name : String) (value : Value) :
    ∃ holder, heap.Target name id holder (heap.set id name value).1 ∧
      heap.Writes holder name value (heap.set id name value).2 ∧
      (heap.set id name value).2.get? id name = some value ∧
      ∀ other asked,
        (asked = name ∧ (heap.set id name value).2.Resolves name other holder →
          (heap.set id name value).2.get? other asked = some value) ∧
        (¬ (asked = name ∧ (heap.set id name value).2.Resolves name other holder) →
          (heap.set id name value).2.get? other asked = heap.get? other asked) := by
  have hordered := h.ordered
  obtain ⟨holder, htarget, hset⟩ := hordered.set_target name value
  have hwrites := init_writes (htarget.lt_size hid) name value
  have hafter := hordered.init holder name value
  rw [hset]
  refine ⟨holder, htarget, hwrites, ?_, ?_⟩
  · exact hafter.get?_eq_some_iff.mpr ⟨holder, htarget.resolves hid value, hwrites.written⟩
  · intro other asked
    refine ⟨?_, htarget.get?_eq hordered hid value⟩
    rintro ⟨rfl, hr⟩
    exact hafter.get?_eq_some_iff.mpr ⟨holder, hr, hwrites.written⟩

/-- Two frames in a row bind the name; an assignment below them reaches the nearer one. -/
theorem assignment_writes_one_binding_shadowed :
    ∃ heap : Heap, heap.Built ∧ 2 < heap.size ∧
      (heap.set 2 "x" (.string "new")).2.get? 0 "x" = some (.string "outer") ∧
      ∃ holder, heap.Target "x" 2 holder (heap.set 2 "x" (.string "new")).1 ∧
        heap.Writes holder "x" (.string "new") (heap.set 2 "x" (.string "new")).2 ∧
        (heap.set 2 "x" (.string "new")).2.get? 2 "x" = some (.string "new") ∧
        ∀ other asked,
          (asked = "x" ∧ (heap.set 2 "x" (.string "new")).2.Resolves "x" other holder →
            (heap.set 2 "x" (.string "new")).2.get? other asked = some (.string "new")) ∧
          (¬ (asked = "x" ∧ (heap.set 2 "x" (.string "new")).2.Resolves "x" other holder) →
            (heap.set 2 "x" (.string "new")).2.get? other asked = heap.get? other asked) := by
  have hframes : Built (((empty.push ⟨none, []⟩).push ⟨some 0, []⟩).push ⟨some 1, []⟩) :=
    .child (.child (.root .empty) (by decide)) (by decide)
  have houter := @Built.init _ 0 hframes (by decide) "x" (.string "outer")
  have hinner := @Built.init _ 1 houter (by decide) "x" (.string "inner")
  exact ⟨_, hinner, by decide, rfl, assignment_writes_one_binding hinner (by decide) _ _⟩

end MiniSmalltalk.Heap
