import GrammarNet.Proofs.TableContents

/-!
Nodes as trees.

A node unfolds to a tree, in which shared callers are copied (`StackGraph.unfolded`). The tree has
the stacks of the node, so nodes with one tree have the same stacks. The converse goes down from the
older to the newer nodes: the entries of nodes with the same stacks agree one by one, since they
ascend by return state, and the callers below them have the same stacks again.

* `unfolded_hasStack`: a node and its tree stand for the same stacks.
* `unfolded_eq_iff`: two nodes unfold to one tree exactly when they stand for the same stacks.
* `same_iff_unfolded_eq`: the comparison of nodes decides this at all moments of a run.
-/

namespace GrammarNet

open StackGraph StackEntry

mutual

/-- Call stacks as a tree, which goes from the innermost call to the outermost. -/
inductive CallTree where
  | node (branches : List CallBranch)

/-- One way on in a tree of call stacks. -/
inductive CallBranch where
  /-- The stack ends here. -/
  | ended
  /-- Return to a state, with the callers below it. -/
  | call (returnTo : Int) (callers : CallTree)

end

/-- The tree holds the stack. -/
inductive CallTree.HasStack : CallTree → List Int → Prop
  | ended {branches : List CallBranch} : .ended ∈ branches → HasStack (.node branches) []
  | call {branches : List CallBranch} {returnTo : Int} {callers : CallTree} {stack : List Int} :
      .call returnTo callers ∈ branches → callers.HasStack stack →
      HasStack (.node branches) (returnTo :: stack)

namespace CallTree

variable {branches : List CallBranch}

theorem hasStack_nil : (node branches).HasStack [] ↔ .ended ∈ branches :=
  ⟨fun | .ended mem => mem, .ended⟩

theorem hasStack_cons {r : Int} {stack : List Int} :
    (node branches).HasStack (r :: stack) ↔ ∃ t, .call r t ∈ branches ∧ t.HasStack stack :=
  ⟨fun | .call mem has => ⟨_, mem, has⟩, fun ⟨_, mem, has⟩ => .call mem has⟩

end CallTree

namespace StackEntry

variable {f : Nat → CallTree} {es fs : List StackEntry}

/-- The branch for an entry, given the trees of nodes. -/
def branch (f : Nat → CallTree) : StackEntry → CallBranch
  | ended => .ended
  | call returnTo caller => .call returnTo (f caller)

theorem ended_mem_branches : .ended ∈ es.map (branch f) ↔ .ended ∈ es := by
  constructor
  · intro mem
    obtain ⟨e, here, same⟩ := List.mem_map.mp mem
    cases e with
    | ended => exact here
    | call r c => cases same
  · exact List.mem_map_of_mem

theorem call_mem_branches {r : Int} {t : CallTree} :
    .call r t ∈ es.map (branch f) ↔ ∃ c, .call r c ∈ es ∧ f c = t := by
  constructor
  · intro mem
    obtain ⟨e, here, same⟩ := List.mem_map.mp mem
    cases e with
    | ended => cases same
    | call s c =>
        cases same
        exact ⟨c, here, rfl⟩
  · rintro ⟨c, mem, rfl⟩
    exact List.mem_map_of_mem (f := branch f) mem

/-- Entries that match have the same branches when their callers have the same trees. -/
theorem branches_eq_of_forall₂ (all : List.Forall₂ (Matches fun c d => f c = f d) es fs) :
    es.map (branch f) = fs.map (branch f) := by
  induction all with
  | nil => rfl
  | cons first _ ih =>
      rw [List.map_cons, List.map_cons, ih]
      cases first with
      | ended => rfl
      | call same => rw [branch, branch, same]

end StackEntry

namespace StackGraph

variable {g : StackGraph} {a b n : Nat}

/-- The tree that a node unfolds to. -/
def unfolded (g : StackGraph) (n : Nat) : CallTree :=
  .node <| (g.entries n).attach.map fun entry =>
    match entry with
    | ⟨.ended, _⟩ => .ended
    | ⟨.call returnTo caller, _⟩ => .call returnTo (g.unfolded caller)
termination_by n
decreasing_by exact caller_lt ‹_› rfl

theorem unfolded_eq (g : StackGraph) (n : Nat) :
    g.unfolded n = .node ((g.entries n).map (branch g.unfolded)) := by
  have each : ∀ entry : {e // e ∈ g.entries n},
      (match entry with
        | ⟨.ended, _⟩ => .ended
        | ⟨.call returnTo caller, _⟩ => .call returnTo (g.unfolded caller)) =
      branch g.unfolded entry.val := by
    rintro ⟨e, mem⟩
    cases e <;> rfl
  rw [unfolded, List.map_congr_left fun entry _ => each entry]
  exact congrArg _ List.attach_map_val

/-- A node and its tree stand for the same stacks. -/
theorem unfolded_hasStack {stack : List Int} :
    (g.unfolded n).HasStack stack ↔ g.HasStack n stack := by
  induction stack generalizing n with
  | nil => rw [unfolded_eq, CallTree.hasStack_nil, ended_mem_branches, hasStack_nil]
  | cons r stack ih =>
      rw [unfolded_eq, CallTree.hasStack_cons, hasStack_cons]
      constructor
      · rintro ⟨t, mem, has⟩
        obtain ⟨c, here, rfl⟩ := call_mem_branches.mp mem
        exact ⟨c, here, ih.mp has⟩
      · rintro ⟨c, mem, has⟩
        exact ⟨g.unfolded c, call_mem_branches.mpr ⟨c, mem, rfl⟩, ih.mpr has⟩

/-- Two nodes unfold to one tree exactly when they stand for the same stacks. -/
theorem unfolded_eq_iff : g.unfolded a = g.unfolded b ↔ g.SameStacks a b := by
  constructor
  · intro one stack
    rw [← unfolded_hasStack, one, unfolded_hasStack]
  · intro same
    induction a using Nat.strongRecOn generalizing b with
    | ind a ih =>
        have all : List.Forall₂ (Matches fun c d => g.unfolded c = g.unfolded d) (g.entries a)
            (g.entries b) :=
          same.matches fun r c d mem _ below => ih c (caller_lt mem rfl) below
        rw [unfolded_eq, unfolded_eq g b, branches_eq_of_forall₂ all]

/-- Only the root compares equal to the root. -/
theorem same_root_iff (inRange : g.InRange) (le : n ≤ g.nodes.size) :
    g.same n root = true ↔ n = root := by
  rw [same_iff inRange]
  constructor
  · exact fun same => same.eq_root le
  · rintro rfl
    exact .refl g root

theorem same_comm (inRange : g.InRange) : g.same a b = true ↔ g.same b a = true := by
  rw [same_iff inRange, same_iff inRange]
  exact ⟨SameStacks.symm, SameStacks.symm⟩

end StackGraph

namespace ContextStore

/-- At each moment of a run, the comparison of two nodes ends. It answers that they are the same
exactly when they unfold to one tree, and they do exactly when they stand for the same stacks. Nodes
that are the same have the same digest, and only the root is the same as the root. -/
theorem same_iff_unfolded_eq (ops : List ContextOp) {a b : Nat}
    (ha : a ≤ (reached ops).graph.nodes.size) (hb : b ≤ (reached ops).graph.nodes.size) :
    let g := (reached ops).graph
    Loop.Ends g.compareRound { work := [(a, b)] } ∧
      (g.same a b = true ↔ g.unfolded a = g.unfolded b) ∧
      (g.unfolded a = g.unfolded b ↔ ∀ stack, g.HasStack a stack ↔ g.HasStack b stack) ∧
      (g.same a b = true → g.digest a = g.digest b) ∧
      (g.same a root = true ↔ a = root) ∧ (g.same root b = true ↔ b = root) := by
  intro g
  have inRange : g.InRange := (reached_sound ops).inRange
  have decides : g.same a b = true ↔ g.SameStacks a b := same_iff inRange
  have rootLeft : g.same root b = true ↔ b = root :=
    (same_comm inRange).trans (same_root_iff inRange hb)
  exact ⟨g.compare_ends a b, decides.trans unfolded_eq_iff.symm, unfolded_eq_iff,
    fun same => (decides.mp same).digest_eq, same_root_iff inRange ha, rootLeft⟩

/-- A run that makes one call twice, and above it two nodes: one shares the first call between its
entries, and the other has both. -/
def sharedAndCopied : List ContextOp :=
  [.single none ⟨10, by decide⟩, .single none ⟨10, by decide⟩,
   .ofReturns [some 1, some 1] [⟨11, by decide⟩, ⟨12, by decide⟩],
   .ofReturns [some 1, some 2] [⟨11, by decide⟩, ⟨12, by decide⟩]]

/-- Sharing does not matter. -/
theorem same_sharedAndCopied :
    let g := (reached sharedAndCopied).graph
    g.entries 3 = [.call 11 1, .call 12 1] ∧ g.entries 4 = [.call 11 1, .call 12 2] ∧
      g.same 3 4 = true ∧ g.unfolded 3 = g.unfolded 4 ∧ g.digest 3 = g.digest 4 := by
  intro g
  have entries3 : g.entries 3 = [.call 11 1, .call 12 1] := rfl
  have entries4 : g.entries 4 = [.call 11 1, .call 12 2] := rfl
  have copies : g.unfolded 1 = g.unfolded 2 := by
    rw [unfolded_eq, unfolded_eq g 2]
    rfl
  have one : g.unfolded 3 = g.unfolded 4 := by
    rw [unfolded_eq, unfolded_eq g 4, entries3, entries4]
    simp [branch, copies]
  obtain ⟨-, decides, -, digests, -, -⟩ :=
    same_iff_unfolded_eq sharedAndCopied (a := 3) (b := 4) (by decide) (by decide)
  exact ⟨entries3, entries4, decides.mpr one, one, digests (decides.mpr one)⟩

end ContextStore

end GrammarNet
