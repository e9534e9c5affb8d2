import MiniSmalltalk.Evaluation.Machine

/-! # Reasoning about evaluations

An evaluation is described by what holds of the machine before it, of value and machine after
it, and of halt and machine where it stops. -/

namespace MiniSmalltalk.Eval

variable {α β : Type}

section

variable {action : Eval α} {next : α → Eval β} {machine behind : Machine}

theorem bind_of_ok {value : α} (h : action machine = .ok value behind) :
    (action >>= next) machine = next value behind := by
  simp [Bind.bind, EStateM.bind, h]

theorem bind_of_error {halt : Halt} (h : action machine = .error halt behind) :
    (action >>= next) machine = .error halt behind := by
  simp [Bind.bind, EStateM.bind, h]

end

def Ends (after : α → Machine → Prop) (stopped : Halt → Machine → Prop) :
    EStateM.Result Halt Machine α → Prop
  | .ok value machine => after value machine
  | .error halt machine => stopped halt machine

/-- From every machine with `before`, an evaluation ends as `after` or `stopped` says. -/
def Triple (before : Machine → Prop) (action : Eval α) (after : α → Machine → Prop)
    (stopped : Halt → Machine → Prop) : Prop :=
  ∀ machine, before machine → Ends after stopped (action machine)

namespace Triple

variable {before : Machine → Prop} {after : α → Machine → Prop} {stopped : Halt → Machine → Prop}
  {action : Eval α}

theorem pure {value : α} (h : ∀ machine, before machine → after value machine) :
    Triple before (Pure.pure value) after stopped := h

theorem bind {next : α → Eval β} {final : β → Machine → Prop}
    (h : Triple before action after stopped)
    (hn : ∀ value, Triple (after value) (next value) final stopped) :
    Triple before (action >>= next) final stopped := by
  intro machine hm
  have hend := h machine hm
  simp only [Bind.bind, EStateM.bind]
  cases hr : action machine with
  | error halt behind =>
      rw [hr] at hend
      exact hend
  | ok value behind =>
      rw [hr] at hend
      exact hn value behind hend

end Triple

end MiniSmalltalk.Eval
