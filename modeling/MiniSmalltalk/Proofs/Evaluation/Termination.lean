import MiniSmalltalk.Proofs.Evaluation.Depth
import MiniSmalltalk.Proofs.Evaluation.Dispatch

/-! # Termination without variables

A block can call itself only through a variable. Where no variable is read, every block that a
tree gives comes from a literal inside it, so its body is lower than the tree, and the height of
the tree bounds how deep its evaluation nests. -/

namespace MiniSmalltalk

/-! ### The nodes that are evaluated -/

namespace Node

mutual

/-- The number of nodes on the longest way down a tree. -/
def height : Node → Nat
  | ⟨_, _, children, _⟩ => heightOfSlots children + 1

def heightOfSlots : List (Option Node) → Nat
  | [] => 0
  | slot :: slots => max (heightOfSlot slot) (heightOfSlots slots)

def heightOfSlot : Option Node → Nat
  | none => 0
  | some node => height node

end

theorem height_le_heightOfSlots {child : Node} {slots : List (Option Node)}
    (h : some child ∈ slots) : child.height ≤ heightOfSlots slots := by
  induction slots with
  | nil => cases h
  | cons slot slots ih =>
      rw [heightOfSlots]
      rcases List.mem_cons.mp h with rfl | h
      · exact Nat.le_max_left _ _
      · exact Nat.le_trans (ih h) (Nat.le_max_right _ _)

theorem height_lt {node child : Node} (h : some child ∈ node.children) :
    child.height < node.height := by
  cases node with
  | mk kind text children span =>
      rw [height]
      exact Nat.lt_succ_of_le (height_le_heightOfSlots h)

def runArguments (run : Node) : List Node :=
  if run.kind = .messages then
    ((run.children.filterMap id).filter Evaluator.isMessage).flatMap
      fun message => message.children.filterMap id
  else []

/-- The nodes inside a node that its evaluation may evaluate, and the body that a block literal
leaves to the calls of its value. -/
def evaluated (node : Node) : List Node :=
  match node.kind with
  | .statements => node.children.filterMap id
  | .expression =>
      (node.child? 0).toList ++ ((node.children.drop 1).filterMap id).flatMap runArguments
  | .assignment => (node.child? 1).toList
  | .answer => (node.child? 0).toList
  | .block => ((node.children.filterMap id).reverse.find? Block.isBody).toList
  | _ => []

/-- A tree in which no variable is read: names stand in it as messages, declarations and targets
of assignments only. -/
inductive VariableFree : Node → Prop where
  | node {node : Node} : node.kind ≠ .identifier →
      (∀ part ∈ node.evaluated, VariableFree part) → VariableFree node

theorem height_lt_of_mem_filterMap {node part : Node} (h : part ∈ node.children.filterMap id) :
    part.height < node.height :=
  height_lt (by simpa using h)

theorem runArguments_height_lt {run argument : Node} (h : argument ∈ run.runArguments) :
    argument.height < run.height := by
  unfold runArguments at h
  split at h
  · obtain ⟨message, hm, ha⟩ := List.mem_flatMap.mp h
    have hmessage := height_lt_of_mem_filterMap (List.mem_filter.mp hm).1
    exact Nat.lt_trans (height_lt_of_mem_filterMap ha) hmessage
  · cases h

theorem evaluated_height_lt {node part : Node} (h : part ∈ node.evaluated) :
    part.height < node.height := by
  unfold evaluated at h
  split at h
  · exact height_lt_of_mem_filterMap h
  · rcases List.mem_append.mp h with h | h
    · exact height_lt (mem_of_child? (Option.mem_toList.mp h))
    · obtain ⟨run, hr, ha⟩ := List.mem_flatMap.mp h
      have hslot : some run ∈ node.children.drop 1 := by simpa using hr
      have hrun := height_lt (List.mem_of_mem_drop hslot)
      exact Nat.lt_trans (runArguments_height_lt ha) hrun
  · exact height_lt (mem_of_child? (Option.mem_toList.mp h))
  · exact height_lt (mem_of_child? (Option.mem_toList.mp h))
  · have hbody := List.mem_of_find?_eq_some (Option.mem_toList.mp h)
    exact height_lt_of_mem_filterMap (List.mem_reverse.mp hbody)
  · cases h

/-- Whether no variable is read in a tree of at most the given height. -/
def isVariableFree : Nat → Node → Bool
  | 0, _ => false
  | height + 1, node =>
      node.kind != .identifier && node.evaluated.all (isVariableFree height)

theorem isVariableFree_iff {height : Nat} {node : Node} (h : node.height ≤ height) :
    isVariableFree height node = true ↔ node.VariableFree := by
  induction height generalizing node with
  | zero =>
      cases node
      simp [Node.height] at h
  | succ height ih =>
      have hparts : ∀ part ∈ node.evaluated,
          (isVariableFree height part = true ↔ part.VariableFree) := by
        intro part hp
        have hlower := evaluated_height_lt hp
        exact ih (by omega)
      rw [isVariableFree, Bool.and_eq_true, bne_iff_ne, List.all_eq_true]
      constructor
      · rintro ⟨hk, hall⟩
        exact .node hk fun part hp => (hparts part hp).mp (hall part hp)
      · rintro ⟨hk, hall⟩
        exact ⟨hk, fun part hp => (hparts part hp).mpr (hall part hp)⟩

instance (node : Node) : Decidable node.VariableFree :=
  decidable_of_iff (isVariableFree node.height node = true) (isVariableFree_iff (Nat.le_refl _))

end Node

/-- Trees in which no variable is read, up to a height. -/
structure Node.FreeWithin (height : Nat) (node : Node) : Prop where
  variableFree : node.VariableFree
  height_le : node.height ≤ height

theorem Node.FreeWithin.evaluated {height : Nat} {node part : Node}
    (h : node.FreeWithin (height + 1)) (hp : part ∈ node.evaluated) : part.FreeWithin height := by
  obtain ⟨hfree, hheight⟩ := h
  have hlower := evaluated_height_lt hp
  cases hfree with
  | node _ hparts => exact ⟨hparts part hp, by omega⟩

/-! ### Evaluations that read no variable -/

namespace Sphere

/-- Trees in which no variable is read and blocks with such bodies, up to a height. A machine may
hold anything, because nothing is read from it. -/
def variableFree (height : Nat) : Sphere where
  holds _ := True
  later _ _ := True
  frame _ _ := True
  reads _ := False
  stray _ := True
  block _ made := ∀ body ∈ made.body, body.FreeWithin height
  tree
    | .evaluated, node => node.FreeWithin height
    | .run, run => ∀ argument ∈ run.runArguments, argument.FreeWithin height
    | .message, message => Evaluator.isMessage message = true →
        ∀ argument, some argument ∈ message.children → argument.FreeWithin height

variable {height : Nat}

/-- The parts of a tree are lower than the tree, and so are the bodies of the blocks it gives. -/
theorem variableFree_opens_succ {node : Node} (h : node.FreeWithin (height + 1)) :
    (variableFree height).terms.Opens .evaluated node node := by
  refine ⟨⟨rfl, rfl, rfl⟩, ?_⟩
  have hpart : ∀ part ∈ node.evaluated, part.FreeWithin height := fun part hp => h.evaluated hp
  simp only [Terms.Parts]
  split <;> rename_i hk
  · refine slots_self (fun _ => trivial) fun part hm => hpart part ?_
    simpa [Node.evaluated, hk] using hm
  · refine ⟨slot_self (fun _ => trivial) fun part hp => ⟨rfl, hpart part ?_⟩,
      slots_self (fun _ => trivial) fun run hr argument ha => hpart argument ?_⟩
    · simp [Node.evaluated, hk, Option.mem_def.mp hp]
    · simp only [Node.evaluated, hk, List.mem_append, List.mem_flatMap]
      exact .inr ⟨run, by simpa using hr, ha⟩
  · refine ⟨slot_self (fun _ => trivial) fun target _ => ⟨⟨rfl, rfl, rfl⟩, trivial⟩,
      slot_self (fun _ => trivial) fun source hs => ⟨rfl, hpart source ?_⟩⟩
    simp [Node.evaluated, hk, Option.mem_def.mp hs]
  · refine slot_self (fun _ => trivial) fun inner hi => ⟨rfl, hpart inner ?_⟩
    simp [Node.evaluated, hk, Option.mem_def.mp hi]
  · cases h.variableFree with
    | node hne _ => exact absurd hk hne
  · trivial
  · trivial
  · refine fun machine frame identity _ => ⟨rfl, fun body hb => hpart body ?_⟩
    simp only [Node.evaluated, hk]
    exact Option.mem_toList.mpr hb
  · trivial

theorem variableFree_opens {role : Role} {node : Node} (h : (variableFree height).tree role node) :
    (variableFree height).terms.Opens role node node := by
  cases role with
  | evaluated => exact variableFree_opens_succ ⟨h.variableFree, Nat.le_succ_of_le h.height_le⟩
  | run =>
      refine ⟨⟨rfl, rfl, rfl⟩, Terms.parts_run (fun _ => trivial) fun hk => ?_⟩
      refine slots_self (fun _ => trivial) fun message hm hsent argument ha => h argument ?_
      rw [Node.runArguments, if_pos hk]
      exact List.mem_flatMap.mpr
        ⟨message, List.mem_filter.mpr ⟨by simpa using hm, hsent⟩, by simpa using ha⟩
  | message =>
      refine ⟨⟨rfl, rfl, rfl⟩, Terms.parts_message (fun _ => trivial) fun hsent => ?_⟩
      exact slots_self (fun _ => trivial) (h hsent)

theorem variableFree_fits_succ {machine : Machine} {value : Value}
    (h : (variableFree height).Fits machine value) :
    (variableFree (height + 1)).Fits machine value := by
  cases value with
  | block made =>
      intro body hb
      obtain ⟨hfree, hheight⟩ := h body hb
      exact ⟨hfree, Nat.le_succ_of_le hheight⟩
  | _ => trivial

/-- Without variables an evaluation stays below a height, and is not stopped for its depth. -/
theorem variableFree_lawful (height : Nat) :
    (Comparison.within (variableFree height) (· ≠ .tooDeep)).Lawful where
  frame_after _ _ := trivial
  block_after _ hb := hb
  opens := by
    rintro role node _ ⟨rfl, h⟩
    exact variableFree_opens h
  body := by
    rintro machine _ block ⟨rfl, h⟩
    exact ⟨rfl, tree_self h⟩
  later_refl _ := trivial
  later_trans _ _ := trivial
  cut_later hcut _ := hcut
  halts _ _ hdeep := by cases hdeep
  read _ _ hname := hname.elim
  store := by
    intro machine id name value value' _ _ _ hv span
    obtain ⟨rfl, -⟩ := fits_iff.mp hv
    exact ⟨rfl, trivial, trivial⟩
  enter := by
    rintro machine _ block arguments arguments' _ ⟨rfl, -⟩ ha _
    obtain ⟨rfl, -⟩ := forall₂_fits_iff.mp ha
    exact ⟨rfl, ⟨trivial, trivial⟩, trivial⟩
  count _ := ⟨rfl, rfl, trivial, trivial⟩
  display _ _ := ⟨rfl, trivial, trivial⟩

end Sphere

namespace Eval

theorem Settled.value_or_fault {α : Type} {result : EStateM.Result Halt Machine α}
    (h : Settled result) :
    (∃ value behind, result = .ok value behind) ∨
      ∃ fault behind, result = .error (.fault fault) behind := by
  cases result with
  | ok value behind => exact .inl ⟨value, behind, rfl⟩
  | error halt behind =>
      cases halt with
      | fault fault => exact .inr ⟨fault, behind, rfl⟩
      | tooDeep => exact absurd rfl (h behind)

end Eval

/-- The height of a tree bounds how deep its evaluation nests. -/
theorem evalUpTo_variableFree (depth : Nat) :
    (Comparison.within (.variableFree depth) (· ≠ .tooDeep)).accord.Evaluates (evalUpTo depth)
      (evalUpTo depth) := by
  induction depth with
  | zero =>
      rintro ⟨kind, text, children, span⟩ _ id machine ⟨rfl, hnode⟩ _ _
      exact absurd hnode.height_le (by simp [Node.height])
  | succ depth ih =>
      rintro _ node id machine ⟨rfl, hnode⟩ _ _
      have law := (Sphere.variableFree_lawful depth).accord
      have hstep : (Comparison.within (.variableFree depth) (· ≠ .tooDeep)).Matches _ machine
          (Evaluator.step (evalUpTo depth) node id) _ :=
        law.step ih trivial trivial (Sphere.variableFree_opens_succ hnode)
      have hend := Comparison.within_fits_iff.mp hstep
      refine Comparison.within_fits_iff.mpr ?_
      rw [evalUpTo_succ]
      cases hr : Evaluator.step (evalUpTo depth) node id machine with
      | ok value behind =>
          rw [hr] at hend
          exact ⟨⟨trivial, trivial⟩, Sphere.variableFree_fits_succ hend.2⟩
      | error halt behind =>
          rw [hr] at hend
          exact ⟨⟨trivial, trivial⟩, hend.2⟩

theorem evalUpTo_settled {node : Node} (h : node.VariableFree) (frame : FrameId)
    (machine : Machine) : Eval.Settled (evalUpTo node.height node frame machine) := by
  have hend := Comparison.within_fits_iff.mp (evalUpTo_variableFree node.height node node frame
    machine ⟨rfl, h, Nat.le_refl _⟩ trivial trivial)
  intro behind hr
  rw [hr] at hend
  exact hend.2 rfl

/-- A tree in which no variable is read comes to a value or a fault, in every frame and whatever a
machine holds. Its height is depth enough, and more depth does not change the result. -/
theorem variable_free_trees_terminate (tree : Option Node)
    (h : ∀ node ∈ tree, node.VariableFree) (frame : Option FrameId) (machine : Machine) :
    ∃ result, (∀ depth, (tree.map Node.height).getD 0 ≤ depth →
        evaluate depth tree frame machine = result) ∧
      ((∃ value behind, result = .ok value behind) ∨
        ∃ fault behind, result = .error (.fault fault) behind) := by
  obtain ⟨id, entered, hentered⟩ : ∃ id entered, ∀ depth node,
      evaluate depth (some node) frame machine = evalUpTo depth node id entered := by
    cases frame <;> exact ⟨_, _, fun _ _ => rfl⟩
  cases tree with
  | none =>
      refine ⟨evaluate 0 none frame machine, fun depth _ => rfl, .inl ?_⟩
      cases frame <;> exact ⟨_, _, rfl⟩
  | some node =>
      have hsettled := evalUpTo_settled (h node rfl) id entered
      refine ⟨evalUpTo node.height node id entered, fun depth hd => ?_, hsettled.value_or_fault⟩
      rw [hentered]
      exact evalUpTo_below hd node id entered hsettled

/-- The tree of `[[:y | x := 'a']] value value: 3`. -/
def Node.nestedBlocks : Node :=
  let assignment : Node := ⟨.assignment, none,
    [some (.leaf .identifier "x" ⟨7, 8⟩),
      some ⟨.expression, none, [some (.leaf .string "a" ⟨12, 15⟩)], ⟨12, 15⟩⟩], ⟨7, 15⟩⟩
  let inner : Node := ⟨.block, none,
    [some ⟨.blockArguments, none, [some (.leaf .identifier "y" ⟨3, 4⟩)], ⟨3, 4⟩⟩,
      some assignment], ⟨1, 16⟩⟩
  let run : Node := ⟨.messages, none,
    [some (.leaf .identifier "value" ⟨18, 23⟩),
      some ⟨.keyword, some "value:", [some (.leaf .integer "3" ⟨31, 32⟩)], ⟨24, 32⟩⟩], ⟨18, 32⟩⟩
  ⟨.expression, none,
    [some ⟨.block, none, [some ⟨.expression, none, [some inner], ⟨1, 16⟩⟩], ⟨0, 17⟩⟩, some run],
    ⟨0, 32⟩⟩

/-- A block that gives a block, and names that are declared, assigned and sent but never read. -/
theorem variable_free_trees_terminate_nested_blocks :
    Node.nestedBlocks.VariableFree ∧
      ∃ result, (∀ depth, 7 ≤ depth →
          evaluate depth (some .nestedBlocks) none .initial = result) ∧
        ((∃ value behind, result = .ok value behind) ∨
          ∃ fault behind, result = .error (.fault fault) behind) := by
  have hfree : Node.nestedBlocks.VariableFree := by decide
  refine ⟨hfree, ?_⟩
  exact variable_free_trees_terminate (some .nestedBlocks)
    (fun node hm => Option.mem_some_iff.mp hm ▸ hfree) none .initial

end MiniSmalltalk
