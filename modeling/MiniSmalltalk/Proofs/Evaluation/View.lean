import MiniSmalltalk.Proofs.Object.Holding
import MiniSmalltalk.Proofs.Tree.Relocation

/-! # Views of a machine

A view shows a machine with its spans placed anew and without what is bound to hidden names.
Everything an evaluation does to a machine, it does to a view of it as well, provided that no
hidden name occurs in the trees involved. This module is about single operations of the heap. -/

namespace MiniSmalltalk

/-- Where spans are shown, and which names are not shown at all. -/
structure View where
  place : Span → Span
  hidden : String → Bool

namespace View

variable (view : View)

/-- A tree as a view shows it. -/
def node (node : Node) : Node := node.relocate view.place

def block (block : Block) : Block :=
  { block with body := block.body.map view.node, span := view.place block.span }

def value : Value → Value
  | .nil => .nil
  | .string text => .string text
  | .number number => .number number
  | .block block => .block (view.block block)

def bindings (bindings : Bindings) : Bindings :=
  (bindings.filter fun entry => !view.hidden entry.1).map fun entry =>
    (entry.1, view.value entry.2)

def frame (frame : Frame) : Frame := ⟨frame.parent, view.bindings frame.bindings⟩

def heap (heap : Heap) : Heap := ⟨heap.frames.map view.frame⟩

def notice : Notice → Notice
  | .implicitDeclaration name span => .implicitDeclaration name (view.place span)
  | .unparsedInput span => .unparsedInput (view.place span)

def machine (machine : Machine) : Machine :=
  { machine with
    heap := view.heap machine.heap
    notices := machine.notices.map view.notice }

def halt : Halt → Halt
  | .fault fault => .fault { fault with span := view.place fault.span }
  | .tooDeep => .tooDeep

def result {α β : Type} (see : α → β) :
    EStateM.Result Halt Machine α → EStateM.Result Halt Machine β
  | .ok value machine => .ok (see value) (view.machine machine)
  | .error halt machine => .error (view.halt halt) (view.machine machine)

end View

/-! ### Views of views -/

namespace View

def comp (outer inner : View) : View :=
  ⟨outer.place ∘ inner.place, fun name => inner.hidden name || outer.hidden name⟩

variable (outer inner : View)

theorem value_value (value : Value) :
    outer.value (inner.value value) = (outer.comp inner).value value := by
  cases value with
  | nil | string | number => rfl
  | block block =>
      have hnode : outer.node ∘ inner.node = (outer.comp inner).node :=
        funext fun node => Node.relocate_relocate inner.place outer.place node
      simp only [View.value, View.block, Option.map_map, hnode]
      rfl

theorem bindings_bindings (bindings : Bindings) :
    outer.bindings (inner.bindings bindings) = (outer.comp inner).bindings bindings := by
  induction bindings with
  | nil => rfl
  | cons entry entries ih =>
      by_cases hi : inner.hidden entry.1 = true
      · simpa [View.bindings, comp, hi] using ih
      · by_cases ho : outer.hidden entry.1 = true
        · simpa [View.bindings, comp, hi, ho] using ih
        · simpa [View.bindings, comp, hi, ho, value_value] using ih

theorem machine_machine (machine : Machine) :
    outer.machine (inner.machine machine) = (outer.comp inner).machine machine := by
  have hframe : outer.frame ∘ inner.frame = (outer.comp inner).frame := by
    funext frame
    simp only [Function.comp_apply, View.frame, bindings_bindings]
  have hnotice : outer.notice ∘ inner.notice = (outer.comp inner).notice := by
    funext notice
    cases notice <;> rfl
  simp only [View.machine, View.heap, Array.map_map, List.map_map, hframe, hnotice]

theorem result_result (result : EStateM.Result Halt Machine Value) :
    outer.result outer.value (inner.result inner.value result) =
      (outer.comp inner).result (outer.comp inner).value result := by
  cases result with
  | ok value behind => simp only [View.result, value_value, machine_machine]
  | error halt behind =>
      simp only [View.result, machine_machine]
      cases halt <;> rfl

end View

/-! ### What a view leaves alone -/

namespace View

variable {view : View}

@[simp] theorem machine_initial : view.machine .initial = .initial := by
  simp [Machine.initial, Machine.empty, Machine.pushFrame, View.machine, View.heap, Heap.push,
    Heap.empty, View.frame, View.bindings]

/-- The notices of a machine that a view leaves alone stay where they are. -/
theorem place_of_machine {machine : Machine} (h : view.machine machine = machine) :
    ∀ notice ∈ machine.notices, view.place notice.span = notice.span := by
  have hnotices : machine.notices.map view.notice = machine.notices.map id := by
    rw [List.map_id]
    exact congrArg Machine.notices h
  intro notice hm
  have hnotice : view.notice notice = notice := List.map_inj_left.mp hnotices notice hm
  cases notice with
  | implicitDeclaration name span => exact (Notice.implicitDeclaration.inj hnotice).2
  | unparsedInput span => exact Notice.unparsedInput.inj hnotice

/-- So does a fault. -/
theorem place_of_halt {fault : RuntimeFault} (h : view.halt (.fault fault) = .fault fault) :
    view.place fault.span = fault.span :=
  congrArg RuntimeFault.span (Halt.fault.inj h)

end View

/-! ### Values without hidden names -/

structure Block.Avoids (hidden : String → Bool) (block : Block) : Prop where
  arguments : ∀ name ∈ block.arguments, hidden name = false
  temporaries : ∀ name ∈ block.temporaries, hidden name = false
  body : ∀ node ∈ block.body, node.Avoids hidden

def Value.Avoids (hidden : String → Bool) : Value → Prop
  | .block literal => literal.Avoids hidden
  | _ => True

/-- No hidden name occurs in any block that is bound. -/
def Machine.Avoids (hidden : String → Bool) (machine : Machine) : Prop :=
  machine.heap.Holding (Value.Avoids hidden)

theorem Machine.avoids_nothing (machine : Machine) : machine.Avoids fun _ => false := by
  intro id frame _ entry _
  cases entry.2 with
  | nil | string | number => trivial
  | block block => exact ⟨by simp, by simp, fun node _ => node.avoids_nothing⟩

namespace Block

theorem lastOfKind_map (kind : Kind) (place : Span → Span) (children : List Node) :
    lastOfKind kind (children.map (Node.relocate place)) =
      (lastOfKind kind children).map (Node.relocate place) := by
  have htest : (fun child : Node => child.kind == kind) ∘ Node.relocate place =
      fun child => child.kind == kind := by
    funext child
    rw [Function.comp_apply, Node.relocate_kind]
  rw [lastOfKind, lastOfKind, ← List.map_reverse, List.find?_map, htest]

theorem names_relocate (place : Span → Span) (declaration : Node) :
    names (declaration.relocate place) = names declaration := by
  simp [names, List.filterMap_map, Function.comp_def]

theorem ofNode_view (view : View) (node : Node) (frame : FrameId) (identity : Nat) :
    ofNode (view.node node) frame identity = view.block (ofNode node frame identity) := by
  have hchildren : (node.relocate view.place).children.filterMap id =
      (node.children.filterMap id).map (Node.relocate view.place) := by
    simp [List.filterMap_map, List.map_filterMap]
  have hbody : isBody ∘ Node.relocate view.place = isBody := by
    funext child
    simp [isBody]
  have hnames : names ∘ Node.relocate view.place = names := by
    funext declaration
    exact names_relocate view.place declaration
  rw [ofNode, ofNode, View.node, hchildren]
  simp only [lastOfKind_map, Option.map_map, hnames, ← List.map_reverse, List.find?_map, hbody,
    Node.relocate_span]
  rfl

theorem ofNode_avoids {hidden : String → Bool} {node : Node} (h : node.Avoids hidden)
    (frame : FrameId) (identity : Nat) : (ofNode node frame identity).Avoids hidden := by
  have hchild : ∀ child, child ∈ (node.children.filterMap id).reverse → child.Avoids hidden := by
    intro child hm
    refine h.inside ?_
    simpa using hm
  have hnames : ∀ {kind : Kind}, kind = .blockArguments ∨ kind = .temporaries →
      ∀ name ∈ ((lastOfKind kind (node.children.filterMap id)).map names).getD [],
        hidden name = false := by
    intro kind hkind name hm
    cases hfound : lastOfKind kind (node.children.filterMap id) with
    | none =>
        rw [hfound] at hm
        cases hm
    | some child =>
        have hk : child.kind = kind := by simpa using List.find?_some hfound
        have havoids := hchild child (List.mem_of_find?_eq_some hfound)
        refine havoids.here name ?_
        rw [hfound] at hm
        rcases hkind with rfl | rfl <;> simpa [Node.names, hk] using hm
  refine ⟨hnames (.inl rfl), hnames (.inr rfl), ?_⟩
  intro body hb
  exact hchild body (List.mem_of_find?_eq_some hb)

end Block

/-! ### Bindings -/

namespace View

variable (view : View)

@[simp] theorem bindings_nil : view.bindings [] = [] := rfl

theorem bindings_cons (entry : String × Value) (entries : Bindings) :
    view.bindings (entry :: entries) =
      if view.hidden entry.1 = true then view.bindings entries
      else (entry.1, view.value entry.2) :: view.bindings entries := by
  by_cases h : view.hidden entry.1 = true <;> simp [bindings, h]

theorem lookup_bindings {name : String} (h : view.hidden name = false) (bindings : Bindings) :
    (view.bindings bindings).lookup name = (List.lookup name bindings).map view.value := by
  induction bindings with
  | nil => rfl
  | cons entry entries ih =>
      rw [bindings_cons, List.lookup_cons]
      by_cases hn : name = entry.1
      · simp [← hn, h]
      · have hne : (name == entry.1) = false := by simpa using hn
        rw [hne]
        split
        · exact ih
        · rw [List.lookup_cons, hne]
          exact ih

theorem bindings_bind {name : String} (h : view.hidden name = false) (value : Value)
    (bindings : Bindings) :
    view.bindings (bindings.bind name value) =
      (view.bindings bindings).bind name (view.value value) := by
  induction bindings with
  | nil => simp [Bindings.bind, bindings_cons, h]
  | cons entry entries ih =>
      rw [Bindings.bind, bindings_cons]
      by_cases hn : entry.1 = name
      · simp [hn, h, bindings_cons, Bindings.bind]
      · rw [if_neg hn, bindings_cons]
        split
        · exact ih
        · rw [Bindings.bind, if_neg hn, ih]

theorem bindings_bind_of_hidden {name : String} (h : view.hidden name = true) (value : Value)
    (bindings : Bindings) :
    view.bindings (bindings.bind name value) = view.bindings bindings := by
  induction bindings with
  | nil => simp [Bindings.bind, bindings_cons, h]
  | cons entry entries ih =>
      rw [Bindings.bind, bindings_cons]
      by_cases hn : entry.1 = name
      · simp [hn, h, bindings_cons]
      · rw [if_neg hn, bindings_cons, ih]

theorem bindings_bindAll {entries : Bindings} (h : ∀ entry ∈ entries, view.hidden entry.1 = false)
    (bindings : Bindings) :
    view.bindings (bindings.bindAll entries) =
      (view.bindings bindings).bindAll
        (entries.map fun entry => (entry.1, view.value entry.2)) := by
  induction entries generalizing bindings with
  | nil => rfl
  | cons entry entries ih =>
      have hentries : ∀ other ∈ entries, view.hidden other.1 = false :=
        fun other hm => h other (List.mem_cons_of_mem _ hm)
      have hstep := ih hentries (bindings.bind entry.1 entry.2)
      rw [view.bindings_bind (h entry (by simp))] at hstep
      exact hstep

theorem callBindings {block : Block} (h : block.Avoids view.hidden) (arguments : List Value) :
    view.bindings (Message.callBindings block arguments) =
      Message.callBindings (view.block block) (arguments.map view.value) := by
  unfold Message.callBindings
  rw [bindings_bindAll]
  · rw [List.map_append, List.map_map, View.block, List.zip_map_right]
    rfl
  · intro entry hm
    rcases List.mem_append.mp hm with hm | hm
    · obtain ⟨name, hname, rfl⟩ := List.mem_map.mp hm
      exact h.temporaries name hname
    · exact h.arguments entry.1 (List.of_mem_zip hm).1

/-! ### Heaps -/

@[simp] theorem heap_size (heap : Heap) : (view.heap heap).size = heap.size := by
  simp [View.heap, Heap.size]

theorem heap_push (heap : Heap) (frame : Frame) :
    view.heap (heap.push frame) = (view.heap heap).push (view.frame frame) := by
  simp [View.heap, Heap.push]

theorem frame?_heap (heap : Heap) (id : FrameId) :
    (view.heap heap).frame? id = (heap.frame? id).map view.frame := by
  simp [View.heap, Heap.frame?]

@[simp] theorem isRoot_heap (heap : Heap) (id : FrameId) :
    (view.heap heap).isRoot id = heap.isRoot id := by
  rw [Heap.isRoot, Heap.isRoot, frame?_heap]
  cases heap.frame? id <;> rfl

theorem bindings_heap (heap : Heap) (id : FrameId) :
    (view.heap heap).bindings id = view.bindings (heap.bindings id) := by
  rw [Heap.bindings, Heap.bindings, frame?_heap]
  cases heap.frame? id <;> rfl

theorem heap_init {name : String} (h : view.hidden name = false) (heap : Heap) (id : FrameId)
    (value : Value) :
    view.heap (heap.init id name value) = (view.heap heap).init id name (view.value value) := by
  have hframe : ∀ frame : Frame,
      view.frame { frame with bindings := frame.bindings.bind name value } =
        { view.frame frame with
          bindings := (view.frame frame).bindings.bind name (view.value value) } := by
    intro frame
    simp [View.frame, view.bindings_bind h]
  rw [View.heap, View.heap, Heap.init, Heap.init, Heap.mk.injEq]
  refine Array.ext_getElem? fun index => ?_
  simp only [Array.getElem?_map, Array.getElem?_modify]
  split <;> simp [hframe, Function.comp_def]

theorem heap_init_of_hidden {name : String} (h : view.hidden name = true) (heap : Heap)
    (id : FrameId) (value : Value) : view.heap (heap.init id name value) = view.heap heap := by
  have hframe : ∀ frame : Frame,
      view.frame { frame with bindings := frame.bindings.bind name value } = view.frame frame := by
    intro frame
    simp [View.frame, view.bindings_bind_of_hidden h]
  rw [View.heap, View.heap, Heap.init, Heap.mk.injEq]
  refine Array.ext_getElem? fun index => ?_
  simp only [Array.getElem?_map, Array.getElem?_modify]
  split <;> simp [hframe, Function.comp_def]

section

variable {name : String} (h : view.hidden name = false)

include h

theorem defines_frame (frame : Frame) : (view.frame frame).defines name = frame.defines name := by
  simp [Frame.defines, View.frame, view.lookup_bindings h]

theorem nearestUpTo_heap (heap : Heap) (limit : Nat) (id : FrameId) :
    (view.heap heap).nearestUpTo name limit id = heap.nearestUpTo name limit id := by
  induction limit generalizing id with
  | zero => rfl
  | succ limit ih =>
      rw [Heap.nearestUpTo, Heap.nearestUpTo, frame?_heap]
      cases heap.frame? id with
      | none => rfl
      | some frame =>
          simp only [Option.map_some, view.defines_frame h]
          simp only [View.frame, ih]

theorem get?_heap (heap : Heap) (id : FrameId) :
    (view.heap heap).get? id name = (heap.get? id name).map view.value := by
  rw [Heap.get?, Heap.get?, Heap.nearest?, Heap.nearest?, view.nearestUpTo_heap h]
  cases heap.nearestUpTo name (id + 1) id with
  | none => rfl
  | some holder => simp [view.bindings_heap, view.lookup_bindings h]

theorem heap_set (heap : Heap) (id : FrameId) (value : Value) :
    (view.heap heap).set id name (view.value value) =
      ((heap.set id name value).1, view.heap (heap.set id name value).2) := by
  rw [Heap.set, Heap.set, Heap.nearest?, Heap.nearest?, view.nearestUpTo_heap h]
  cases heap.nearestUpTo name (id + 1) id <;> simp [view.heap_init h]

end

end View

/-! ### Heaps without hidden names -/

/-- The view that shows everything but hidden names, and everything where it is. -/
def View.without (hidden : String → Bool) : View := ⟨id, hidden⟩

/-- No hidden name occurs in any block that is bound to another name. -/
def Heap.Clear (hidden : String → Bool) (heap : Heap) : Prop :=
  ((View.without hidden).heap heap).Holding (Value.Avoids hidden)

namespace View

variable (hidden : String → Bool)

theorem without_value (value : Value) : (without hidden).value value = value := by
  have hnode : (without hidden).node = id := funext fun node =>
    Node.relocate_of_everywhere _ (Node.everywhere_of_forall (fun _ => rfl) node)
  cases value with
  | nil | string | number => rfl
  | block block =>
      simp only [value, View.block, hnode, Option.map_id_fun, id]
      rfl

theorem without_bindings_holding {holds : Value → Prop} {bindings : Bindings}
    (h : bindings.Holding holds) : ((without hidden).bindings bindings).Holding holds := by
  intro entry hm
  obtain ⟨shown, hshown, rfl⟩ := List.mem_map.mp hm
  rw [without_value]
  exact h shown (List.mem_filter.mp hshown).1

end View

namespace Heap.Clear

variable {hidden : String → Bool} {heap : Heap}

theorem of_holding (h : heap.Holding (Value.Avoids hidden)) : heap.Clear hidden := by
  intro id frame hf
  rw [View.frame?_heap] at hf
  obtain ⟨shown, hshown, rfl⟩ := Option.map_eq_some_iff.mp hf
  exact View.without_bindings_holding hidden (h id shown hshown)

/-- What is bound to a hidden name does not matter. -/
theorem init_of_hidden (h : heap.Clear hidden) {name : String} (hn : hidden name = true)
    (id : FrameId) (value : Value) : (heap.init id name value).Clear hidden := by
  rw [Clear, (View.without hidden).heap_init_of_hidden hn]
  exact h

theorem push (h : heap.Clear hidden) {frame : Frame}
    (hf : frame.bindings.Holding (Value.Avoids hidden)) : (heap.push frame).Clear hidden := by
  rw [Clear, View.heap_push]
  exact Heap.Holding.push h (View.without_bindings_holding hidden hf)

theorem set (h : heap.Clear hidden) {name : String} (hn : hidden name = false) {value : Value}
    (hv : value.Avoids hidden) (id : FrameId) : (heap.set id name value).2.Clear hidden := by
  have hset := (View.without hidden).heap_set hn heap id value
  rw [View.without_value] at hset
  have hholding := Heap.Holding.set h hv id name
  rw [hset] at hholding
  exact hholding

theorem get? (h : heap.Clear hidden) {name : String} (hn : hidden name = false) {id : FrameId}
    {value : Value} (hg : heap.get? id name = some value) : value.Avoids hidden := by
  have hshown : ((View.without hidden).heap heap).get? id name = some value := by
    rw [(View.without hidden).get?_heap hn, hg, Option.map_some, View.without_value]
  exact Heap.Holding.get? h hshown

end Heap.Clear

/-! ### Frames that are kept -/

/-- Every frame is still there, with its parent and with what it binds hidden names to, and new
frames bind no hidden names. -/
structure Heap.Keeps (hidden : String → Bool) (before after : Heap) : Prop where
  old : ∀ id frame, before.frame? id = some frame → ∃ kept, after.frame? id = some kept ∧
    kept.parent = frame.parent ∧
    ∀ name, hidden name = true → kept.bindings.lookup name = frame.bindings.lookup name
  new : ∀ id frame, before.frame? id = none → after.frame? id = some frame →
    ∀ name, hidden name = true → frame.bindings.lookup name = none

namespace Heap.Keeps

variable {hidden : String → Bool} {first second third : Heap}

theorem refl (heap : Heap) : heap.Keeps hidden heap := by
  refine ⟨fun _ frame hf => ⟨frame, hf, rfl, fun _ _ => rfl⟩, ?_⟩
  intro id frame hnone hf
  rw [hnone] at hf
  cases hf

theorem trans (h : first.Keeps hidden second) (h' : second.Keeps hidden third) :
    first.Keeps hidden third := by
  refine ⟨?_, ?_⟩
  · intro id frame hf
    obtain ⟨middle, hmiddle, hparent, hlookup⟩ := h.old id frame hf
    obtain ⟨last, hlast, hparent', hlookup'⟩ := h'.old id middle hmiddle
    refine ⟨last, hlast, hparent'.trans hparent, ?_⟩
    intro name hn
    exact (hlookup' name hn).trans (hlookup name hn)
  · intro id frame hnone hf name hn
    cases hmiddle : second.frame? id with
    | none => exact h'.new id frame hmiddle hf name hn
    | some middle =>
        obtain ⟨last, hlast, -, hlookup⟩ := h'.old id middle hmiddle
        obtain rfl := Option.some.inj (hlast.symm.trans hf)
        exact (hlookup name hn).trans (h.new id middle hnone hmiddle name hn)

theorem push (heap : Heap) {frame : Frame}
    (h : ∀ name, hidden name = true → frame.bindings.lookup name = none) :
    heap.Keeps hidden (heap.push frame) := by
  refine ⟨?_, ?_⟩
  · intro id found hf
    have hlt : id < heap.size := by
      rw [frame?, Array.getElem?_eq_some_iff] at hf
      exact hf.1
    exact ⟨found, by rwa [frame?_push_of_lt hlt], rfl, fun _ _ => rfl⟩
  · intro id found hnone hf
    simp only [Heap.push, frame?, Array.getElem?_push] at hf
    split at hf
    · cases hf
      exact h
    · rw [frame?, hf] at hnone
      cases hnone

theorem init {name : String} (hn : hidden name = false) (heap : Heap) (id : FrameId)
    (value : Value) : heap.Keeps hidden (heap.init id name value) := by
  refine ⟨?_, ?_⟩
  · intro other found hf
    by_cases heq : other = id
    · subst heq
      refine ⟨{ found with bindings := found.bindings.bind name value }, ?_, rfl, ?_⟩
      · rw [frame?_init_self, hf]
        rfl
      intro kept hk
      have hne : kept ≠ name := by
        rintro rfl
        simp [hk] at hn
      exact Bindings.lookup_bind_of_ne hne value found.bindings
    · exact ⟨found, by rwa [frame?_init_of_ne heq], rfl, fun _ _ => rfl⟩
  · intro other found hnone hf
    by_cases heq : other = id
    · subst heq
      rw [frame?_init_self, hnone] at hf
      cases hf
    · rw [frame?_init_of_ne heq, hnone] at hf
      cases hf

theorem set {name : String} (hn : hidden name = false) (heap : Heap) (id : FrameId)
    (value : Value) : heap.Keeps hidden (heap.set id name value).2 := by
  unfold Heap.set
  split
  · exact init hn heap _ value
  · exact init hn heap id value

end Heap.Keeps

end MiniSmalltalk
