import MiniSmalltalk.Proofs.Evaluation.Declaration
import MiniSmalltalk.Proofs.Evaluation.Isolation
import MiniSmalltalk.Proofs.Evaluation.Sequence
import MiniSmalltalk.Proofs.Session.Stability

/-! # Appending evaluations

An evaluation only ever adds: frames to a heap whose frames keep their parents and their names,
text to the transcript and notices to the notices. What it adds, and what it comes to, does not
depend on the text and the notices that were there before, even if it fails. -/

namespace MiniSmalltalk

open Eval Regime

/-! ### Heaps that grow -/

namespace Heap

/-- All frames are still there, with their parents and the names they bind. -/
structure Extends (before after : Heap) : Prop where
  size_le : before.size ≤ after.size
  parent : ∀ id < before.size, after.parent? id = before.parent? id
  defines : ∀ id name, before.defines id name = true → after.defines id name = true

namespace Extends

theorem refl (heap : Heap) : heap.Extends heap :=
  ⟨Nat.le_refl _, fun _ _ => rfl, fun _ _ hd => hd⟩

theorem trans {first second third : Heap} (h : first.Extends second)
    (h' : second.Extends third) : first.Extends third where
  size_le := Nat.le_trans h.size_le h'.size_le
  parent id hid := (h'.parent id (Nat.lt_of_lt_of_le hid h.size_le)).trans (h.parent id hid)
  defines id name hd := h'.defines id name (h.defines id name hd)

theorem push (heap : Heap) (frame : Frame) : heap.Extends (heap.push frame) where
  size_le := by simp
  parent id hid := by rw [parent?, frame?_push_of_lt hid, parent?]
  defines id name hd := by
    obtain ⟨found, hf, hd⟩ := defines_iff.mp hd
    exact defines_iff.mpr ⟨found, frame?_push_of_some hf frame, hd⟩

theorem init (heap : Heap) (id : FrameId) (name : String) (value : Value) :
    heap.Extends (heap.init id name value) where
  size_le := by simp
  parent other _ := parent?_init id other name value
  defines other asked hd := by
    obtain ⟨frame, hf, hd⟩ := defines_iff.mp hd
    obtain ⟨found, hfound, -, hdefines⟩ := frame?_init_of_some hf id name value
    exact defines_iff.mpr ⟨found, hfound, by simp [hdefines, hd]⟩

theorem set (heap : Heap) (id : FrameId) (name : String) (value : Value) :
    heap.Extends (heap.set id name value).2 := by
  unfold Heap.set
  split
  · exact init heap _ name value
  · exact init heap id name value

end Extends

/-! ### Ways up -/

/-- Every way up from a frame to its parent and on comes to an end, and a search for a name is
never given up before that. -/
structure Climbable (heap : Heap) : Prop where
  ends : WellFounded fun above id => heap.parent? id = some (some above)
  searched : ∀ name id limit, id < limit → heap.nearestUpTo name limit id = heap.nearest? id name

theorem WellFormed.parent_lt {heap : Heap} (h : heap.WellFormed) {above id : FrameId}
    (hp : heap.parent? id = some (some above)) : above < id := by
  obtain ⟨frame, hf, hparent⟩ := Option.map_eq_some_iff.mp hp
  exact h.parent id frame hf above hparent

theorem WellFormed.climbable {heap : Heap} (h : heap.WellFormed) : heap.Climbable where
  ends := Subrelation.wf (fun hp => h.parent_lt hp) Nat.lt_wfRel.wf
  searched name id limit hlt := by
    apply Option.ext
    intro holder
    rw [nearestUpTo_eq_some_iff h hlt, nearest?_eq_some_iff h]

end Heap

/-! ### Evaluations that only append -/

def Machine.showing (machine : Machine) (transcript : Transcript) (notices : List Notice) :
    Machine :=
  { machine with transcript, notices }

namespace Eval

/-- An evaluation leaves a well-formed heap in which all frames, parents and names are kept, gives
no block whose frame does not exist, and adds the same text and the same notices to whatever was
shown and remarked before, to which it is blind otherwise. -/
structure Appends (machine : Machine) (action : Eval Value) : Prop where
  wellFormed : (left (action machine)).heap.WellFormed
  climbable : (left (action machine)).heap.Climbable
  extended : machine.heap.Extends (left (action machine)).heap
  returned : ∀ value behind, action machine = .ok value behind → value.Within behind.heap.size
  output : ∃ shown remarks, ∀ transcript notices,
    verdict (action (machine.showing transcript notices)) = verdict (action machine) ∧
      left (action (machine.showing transcript notices)) =
        (left (action machine)).showing (transcript.append shown) (notices ++ remarks)

end Eval

namespace Regime

/-- Heaps only grow. -/
def extending : Regime where
  holds _ := True
  frame _ _ := True
  later machine behind := machine.heap.Extends behind.heap
  change := id
  cut _ _ := False

theorem extending_fits (machine : Machine) (value : Value) : extending.Fits machine value := by
  cases value <;> trivial

theorem extending_lawful : extending.Lawful where
  later_refl machine := .refl machine.heap
  later_trans := .trans
  frame_later _ hid := hid
  cut_later hcut _ := hcut
  read _ _ _ := ⟨rfl, fun value _ => extending_fits _ value⟩
  store {machine id value} _ _ _ name _ := ⟨rfl, trivial, .set machine.heap id name value⟩
  enter {machine id bindings} _ _ _ :=
    ⟨rfl, ⟨trivial, .push machine.heap ⟨some id, bindings⟩⟩, trivial⟩
  count _ := ⟨rfl, rfl, trivial, .refl _⟩
  display _ _ := ⟨rfl, trivial, .refl _⟩

end Regime

/-- An evaluation that may go on behind any output is not influenced by it. -/
theorem Eval.showing_output {machine : Machine} {action : Eval Value}
    (h : ∀ earlier : Machine, action (machine.quiet.following earlier) =
      (following earlier).exchange (action machine.quiet)) (transcript : Transcript)
    (notices : List Notice) :
    verdict (action (machine.showing transcript notices)) = verdict (action machine.quiet) ∧
      left (action (machine.showing transcript notices)) =
        (left (action machine.quiet)).showing
          (transcript.append (left (action machine.quiet)).transcript.contents)
          (notices ++ (left (action machine.quiet)).notices) := by
  have hbehind := h (machine.showing transcript notices)
  have hstart : machine.quiet.following (machine.showing transcript notices) =
      machine.showing transcript notices :=
    (machine.showing transcript notices).quiet_following
  rw [hstart] at hbehind
  rw [hbehind, verdict_exchange, left_exchange]
  exact ⟨rfl, rfl⟩

theorem Eval.appends_of_obeys {machine : Machine} {action : Eval Value}
    (hs : stable.Obeys stable.Fits machine action action)
    (he : extending.Obeys extending.Fits machine action action)
    (hf : ∀ earlier, (following earlier).Obeys (following earlier).Fits machine.quiet action
      action) : Appends machine action := by
  have hleft := hs.after_left.1
  refine ⟨hleft, hleft.climbable, he.after_left.2, ?_, ?_⟩
  · intro value behind hr
    have hend := hs.ends
    rw [hr] at hend
    have hfits := hend.2
    rwa [stable_fits] at hfits
  · have houtput := Eval.showing_output fun earlier =>
      (hf earlier).eq_exchange fun _ _ hcut => hcut
    -- What the machine itself has shown and remarked is one choice among others.
    obtain ⟨hverdict, hown⟩ := houtput machine.transcript machine.notices
    let quiet := left (action machine.quiet)
    refine ⟨quiet.transcript.contents, quiet.notices, fun transcript notices => ?_⟩
    obtain ⟨hother, hbehind⟩ := houtput transcript notices
    refine ⟨hother.trans hverdict.symm, hbehind.trans ?_⟩
    change left (action machine) = _ at hown
    rw [hown]
    rfl

/-- From a well-formed heap, evaluating a tree and performing a message only append, whatever they
come to. -/
theorem evaluation_only_appends (machine : Machine) (hm : machine.heap.WellFormed) (depth : Nat) :
    (∀ (tree : Option Node) (frame : Option FrameId), (∀ id ∈ frame, id < machine.heap.size) →
      Eval.Appends machine (evaluate depth tree frame)) ∧
    ∀ (receiver : Value) (message : Message), receiver.Within machine.heap.size →
      (∀ argument ∈ message.arguments, argument.Within machine.heap.size) →
      Eval.Appends machine (perform depth receiver message) := by
  have hstable := stable_lawful
  have hextending := extending_lawful
  refine ⟨?_, ?_⟩
  · intro tree frame hf
    refine appends_of_obeys ?_ ?_ fun earlier => ?_
    · exact evaluateBy_obeys (hstable.evalUpTo_obeys depth) tree hm hf
    · refine hextending.evaluate_obeys depth tree ?_
      exact hextending.frameOrNew trivial (fun _ _ => trivial) rfl ⟨trivial, .push _ _⟩ trivial
    · have hfollowing := following_lawful earlier
      refine hfollowing.evaluate_obeys depth tree ?_
      exact hfollowing.frameOrNew trivial (fun _ _ => trivial) rfl ⟨trivial, trivial⟩ trivial
  · intro receiver message hr ha
    refine appends_of_obeys ?_ ?_ fun earlier => ?_
    · refine hstable.performWith_obeys hm (hstable.evalUpTo_obeys depth) ?_ message ?_
      · rwa [stable_fits]
      · rwa [stable_fits]
    · exact hextending.performWith_obeys trivial (hextending.evalUpTo_obeys depth)
        (extending_fits machine receiver) message fun argument _ =>
          extending_fits machine argument
    · have hfollowing := following_lawful earlier
      exact hfollowing.performWith_obeys trivial (hfollowing.evalUpTo_obeys depth)
        (following_fits earlier machine.quiet receiver) message fun argument _ =>
          following_fits earlier machine.quiet argument

/-- A block that is bound in the frame it comes from binds a name, shows a text and fails. -/
theorem evaluation_only_appends_failing_block :
    let machine := Machine.initial.showing ⟨"shown, "⟩ [.unparsedInput ⟨0, 1⟩]
    let tree := (parseProgram "f := [:x | y := x displayNl. x foo]. f value: 'a'").toOption.bind
      Parsed.program
    let body := (parseProgram "y := x displayNl. x foo").toOption.bind Parsed.program
    let evaluated := evaluate 20 tree (some 0)
    let performed := perform 20 (.block ⟨["x"], [], body, 0, ⟨0, 23⟩, 0⟩)
      ⟨"value:", "value_", [.string "b"], ⟨0, 23⟩⟩
    machine.heap.WellFormed ∧
      ((verdict (evaluated machine)).toOption.isNone = true ∧
        (left (evaluated machine)).transcript = ⟨"shown, a"⟩ ∧
        (left (evaluated machine)).notices.length = 2 ∧ Eval.Appends machine evaluated) ∧
      (verdict (performed machine)).toOption.isNone = true ∧
        (left (performed machine)).transcript = ⟨"shown, b"⟩ ∧
        (left (performed machine)).notices.length = 2 ∧ Eval.Appends machine performed := by
  intro machine tree body evaluated performed
  have hm : machine.heap.WellFormed := Heap.wellFormed_initial
  obtain ⟨hevaluate, hperform⟩ := evaluation_only_appends machine hm 20
  have hzero : 0 < machine.heap.size := by decide
  have hevaluated : Eval.Appends machine evaluated := by
    refine hevaluate tree (some 0) ?_
    rintro id ⟨⟩
    exact hzero
  have hperformed : Eval.Appends machine performed := by
    refine hperform _ _ hzero ?_
    intro argument ha
    obtain rfl := List.mem_singleton.mp ha
    trivial
  exact ⟨hm, ⟨by decide +kernel, by decide +kernel, by decide +kernel, hevaluated⟩,
    by decide +kernel, by decide +kernel, by decide +kernel, hperformed⟩

end MiniSmalltalk
