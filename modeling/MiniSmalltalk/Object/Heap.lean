import MiniSmalltalk.Object.Value

/-! # Frames

A frame binds names to values and may have a parent, in which names are looked up that it does
not bind itself. Frames are never removed: blocks refer to them by number. -/

namespace MiniSmalltalk

/-- Names and their values, each name once. -/
abbrev Bindings := List (String × Value)

/-- Binds a name, in its place if it was bound already and last otherwise. -/
def Bindings.bind (name : String) (value : Value) : Bindings → Bindings
  | [] => [(name, value)]
  | entry :: entries =>
      if entry.1 = name then (name, value) :: entries
      else entry :: Bindings.bind name value entries

def Bindings.bindAll (bindings : Bindings) (entries : List (String × Value)) : Bindings :=
  entries.foldl (fun bound entry => Bindings.bind entry.1 entry.2 bound) bindings

namespace Bindings

theorem lookup_bind_self (name : String) (value : Value) (bindings : Bindings) :
    (bindings.bind name value).lookup name = some value := by
  induction bindings with
  | nil => simp [bind]
  | cons entry entries ih =>
      obtain ⟨key, bound⟩ := entry
      by_cases h : key = name
      · simp [bind, h]
      · have hne : (name == key) = false := by simpa using Ne.symm h
        simpa [bind, h, List.lookup_cons, hne] using ih

theorem lookup_bind_of_ne {name other : String} (h : other ≠ name) (value : Value)
    (bindings : Bindings) : (bindings.bind name value).lookup other = bindings.lookup other := by
  have hne : (other == name) = false := by simpa using h
  induction bindings with
  | nil => simp [bind, List.lookup_cons, hne]
  | cons entry entries ih =>
      obtain ⟨key, bound⟩ := entry
      by_cases hkey : key = name
      · subst hkey
        simp [bind, List.lookup_cons, hne]
      · simp [bind, hkey, List.lookup_cons, ih]

end Bindings

structure Frame where
  parent : Option FrameId
  bindings : Bindings

def Frame.defines (frame : Frame) (name : String) : Bool := (frame.bindings.lookup name).isSome

/-- All frames made so far. -/
structure Heap where
  frames : Array Frame

/-- Where an assignment stored its value. -/
inductive Binding where
  | existing
  | created
  deriving DecidableEq

namespace Heap

def empty : Heap := ⟨#[]⟩

def frame? (heap : Heap) (id : FrameId) : Option Frame := heap.frames[id]?

/-- The number the next frame will have. -/
def size (heap : Heap) : Nat := heap.frames.size

/-- Adds a frame; its number is the size the heap had before. -/
def push (heap : Heap) (frame : Frame) : Heap := ⟨heap.frames.push frame⟩

def bindings (heap : Heap) (id : FrameId) : Bindings :=
  ((heap.frame? id).map Frame.bindings).getD []

/-- Whether a frame, its parents aside, binds a name. -/
def defines (heap : Heap) (id : FrameId) (name : String) : Bool :=
  (heap.frame? id).any fun frame => frame.defines name

def isRoot (heap : Heap) (id : FrameId) : Bool :=
  (heap.frame? id).any fun frame => frame.parent.isNone

def init (heap : Heap) (id : FrameId) (name : String) (value : Value) : Heap :=
  ⟨heap.frames.modify id fun frame => { frame with bindings := frame.bindings.bind name value }⟩

/-- The nearest of at most `limit` frames, from one to its parent and on, that binds a name. -/
def nearestUpTo (heap : Heap) (name : String) : Nat → FrameId → Option FrameId
  | 0, _ => none
  | limit + 1, id =>
      match heap.frame? id with
      | none => none
      | some frame =>
          if frame.defines name then some id
          else
            match frame.parent with
            | none => none
            | some parent => nearestUpTo heap name limit parent

/-- The nearest frame that binds a name. Parents are older than their children, so a frame
with the number `n` has at most `n` frames above it. -/
def nearest? (heap : Heap) (id : FrameId) (name : String) : Option FrameId :=
  heap.nearestUpTo name (id + 1) id

/-- The value of a name as seen from a frame. -/
def get? (heap : Heap) (id : FrameId) (name : String) : Option Value := do
  let holder ← heap.nearest? id name
  (heap.bindings holder).lookup name

/-- Assigns to a name: in the nearest frame that binds it, or else in the frame itself. -/
def set (heap : Heap) (id : FrameId) (name : String) (value : Value) : Binding × Heap :=
  match heap.nearest? id name with
  | some holder => (.existing, heap.init holder name value)
  | none => (.created, heap.init id name value)

/-! ### Single frames -/

@[simp] theorem size_push (heap : Heap) (frame : Frame) :
    (heap.push frame).size = heap.size + 1 := by
  simp [push, size]

@[simp] theorem frame?_push_self (heap : Heap) (frame : Frame) :
    (heap.push frame).frame? heap.size = some frame := by
  simp [push, frame?, size]

theorem frame?_push_of_lt {heap : Heap} {id : FrameId} (h : id < heap.size) (frame : Frame) :
    (heap.push frame).frame? id = heap.frame? id := by
  have hne : id ≠ heap.frames.size := Nat.ne_of_lt h
  simp [push, frame?, Array.getElem?_push, hne]

theorem frame?_init_self (heap : Heap) (id : FrameId) (name : String) (value : Value) :
    (heap.init id name value).frame? id =
      (heap.frame? id).map fun frame =>
        { frame with bindings := frame.bindings.bind name value } := by
  simp [init, frame?, Array.getElem?_modify]

theorem frame?_init_of_ne {id other : FrameId} (h : other ≠ id) (heap : Heap) (name : String)
    (value : Value) : (heap.init id name value).frame? other = heap.frame? other := by
  simp [init, frame?, Array.getElem?_modify, Ne.symm h]

@[simp] theorem size_init (heap : Heap) (id : FrameId) (name : String) (value : Value) :
    (heap.init id name value).size = heap.size := by
  simp [init, size]

end Heap

end MiniSmalltalk
