import GrammarNet.Proofs.ContextRuns

/-!
What nodes stand for, at all moments of a run.

Nodes and what tables keep stay the same as a run goes on, so what is found at one moment can be
compared with what is found at another. A merge of a list finds everything anew, and the table has
one node for each set of stacks.

* `standsFor_of_joined`: a merged node stands for the stacks of both nodes.
* `mergeAll_eq_iff_same_union`: merged lists are one node exactly when they have the same stacks.
-/

namespace GrammarNet

open StackGraph StackEntry

namespace StackGraph

variable {g : StackGraph}

/-- The return states of a node ascend, and nothing but the end is without callers. -/
structure Ordered (g : StackGraph) (n : Nat) : Prop where
  ascending : (g.returns n).Pairwise (· < ·)
  ended : ∀ e ∈ g.entries n, e.caller? = none ↔ e.returnState = endMark

theorem ordered_of_inRange (inRange : g.InRange) (n : Nat) : g.Ordered n where
  ascending := by
    refine List.pairwise_map.mpr ((g.entries_pairwise n).imp_of_mem fun {e f} mem _ before => ?_)
    cases e with
    | ended => cases before
    | call r c =>
        cases f with
        | ended => exact inRange n r c mem
        | call s d => simpa [StackEntry.before, returnState] using before
  ended e mem := by
    cases e with
    | ended => exact ⟨fun _ => rfl, fun _ => rfl⟩
    | call r c =>
        have below := inRange n r c mem
        refine ⟨fun none => (by cases none), fun (mark : r = endMark) => ?_⟩
        omega

/-- A node with one call has the stacks of its callers below the call. -/
theorem hasStack_of_call {n c : Nat} {r : Int} (entries : g.entries n = [.call r c])
    {stack : List Int} : g.HasStack n stack ↔ ∃ rest, stack = r :: rest ∧ g.HasStack c rest := by
  cases stack with
  | nil => simp [hasStack_nil, entries]
  | cons s rest =>
      simp only [hasStack_cons, entries, List.mem_singleton, StackEntry.call.injEq]
      constructor
      · rintro ⟨d, ⟨rfl, rfl⟩, has⟩
        exact ⟨rest, rfl, has⟩
      · rintro ⟨rest, same, has⟩
        cases same
        exact ⟨c, ⟨rfl, rfl⟩, has⟩

end StackGraph

namespace ContextStore

variable {s t : ContextStore}

/-- The node that the reference names stands for this stack. -/
def StandsFor (s : ContextStore) (n : Option Nat) (stack : List Int) : Prop :=
  s.graph.HasStack (s.graph.resolveRef n) stack

theorem Grows.standsFor (grows : s.Grows t) {n : Option Nat} (names : s.graph.Names n)
    {stack : List Int} : t.StandsFor n stack ↔ s.StandsFor n stack := by
  rw [StandsFor, StandsFor, names.resolveRef_eq grows.graph,
    grows.graph.hasStack (s.graph.resolveRef_le n)]

theorem standsFor_some {n : Nat} (le : n ≤ s.graph.nodes.size) {stack : List Int} :
    s.StandsFor (some n) stack ↔ s.graph.HasStack n stack := by
  have named : s.graph.resolveRef (some n) = n := resolve_eq le
  rw [StandsFor, named]

theorem standsFor_of_joined {a b : Option Nat} {n : Nat}
    (joined : s.graph.Joined (s.graph.resolveRef a) (s.graph.resolveRef b) n t.graph)
    (stack : List Int) : t.StandsFor (some n) stack ↔ s.StandsFor a stack ∨ s.StandsFor b stack := by
  rw [standsFor_some joined.le, joined.joins, joined.grows.hasStack (s.graph.resolveRef_le a),
    joined.grows.hasStack (s.graph.resolveRef_le b), StandsFor, StandsFor]

/-- A canonical node has the stacks of the node it stands for. -/
theorem Sound.canonical_standsFor (sound : s.Sound) (table : Nat) (map a : Option Nat) :
    ∃ c t, s.canonical table map a = .ok (c, t) ∧
      ∀ stack, t.StandsFor (some c) stack ↔ s.StandsFor a stack := by
  obtain ⟨c, t, result, ⟨sound', grows⟩, keeps, same⟩ := sound.canonical table map a
  refine ⟨c, t, result, fun stack => ?_⟩
  rw [standsFor_some (keeps.le (sound'.tables table)), ← same stack,
    grows.graph.hasStack (s.graph.resolveRef_le a), StandsFor]

theorem reached_sound (ops : List ContextOp) : (reached ops).Sound :=
  (run_sound sound_start ops).1

theorem reached_concat (before : List ContextOp) (op : ContextOp) :
    reached (before ++ [op]) = (reached before).exec op := by
  rw [reached, run, List.foldl_append]
  rfl

/-- A run that goes on keeps what it has. -/
theorem reached_grows (before after : List ContextOp) :
    (reached before).Grows (reached (before ++ after)) := by
  rw [reached, reached, run, run, List.foldl_append]
  exact (run_sound (reached_sound before) after).2

/-- A run goes on from what an operation leaves behind. -/
theorem reached_eq_run {before later : List ContextOp} {op : ContextOp}
    (result : (reached before).exec op = t) : reached (before ++ op :: later) = t.run later := by
  rw [← result, reached, reached, run, run, run, List.foldl_append, List.foldl_cons]

theorem grows_reached {before later : List ContextOp} {op : ContextOp} (sound : t.Sound)
    (result : (reached before).exec op = t) : t.Grows (reached (before ++ op :: later)) := by
  rw [reached_eq_run result]
  exact (run_sound sound later).2

/-- A run that makes two calls above the root. -/
def twoCalls : List ContextOp :=
  [.single none ⟨1, by decide⟩, .single none ⟨2, by decide⟩]

theorem names_twoCalls :
    (reached twoCalls).graph.Names (some 1) ∧ (reached twoCalls).graph.Names (some 2) :=
  ⟨names_some.mpr (by decide), names_some.mpr (by decide)⟩

theorem standsFor_twoCalls (stack : List Int) :
    ((reached twoCalls).StandsFor (some 1) stack ↔ stack = [1]) ∧
      ((reached twoCalls).StandsFor (some 2) stack ↔ stack = [2]) := by
  have call : ∀ n r, (reached twoCalls).graph.entries n = [.call r root] →
      ((reached twoCalls).graph.HasStack n stack ↔ stack = [r]) := by
    intro n r entries
    simp [hasStack_of_call entries, hasStack_root]
  exact ⟨call 1 1 rfl, call 2 2 rfl⟩

/-- The merges of two lists, at any two moments of a run, end with one node exactly when the nodes
of both lists have the same stacks. -/
theorem mergeAll_eq_iff_same_union (before between : List ContextOp) (table : Nat)
    {l₁ l₂ : List (Option Nat)} (names₁ : ∀ n ∈ l₁, (reached before).graph.Names n)
    (names₂ : ∀ n ∈ l₂, (reached (before ++ .mergeAll table l₁ :: between)).graph.Names n) :
    ∃ n₁ t₁ n₂ t₂, (reached before).mergeAll table l₁ = .ok (n₁, t₁) ∧
      (reached (before ++ .mergeAll table l₁ :: between)).mergeAll table l₂ = .ok (n₂, t₂) ∧
      (∀ stack, t₁.StandsFor (some n₁) stack ↔ (reached before).graph.UnionHas l₁ stack) ∧
      (n₁ = n₂ ↔ ∀ stack, (reached before).graph.UnionHas l₁ stack ↔
        (reached (before ++ .mergeAll table l₁ :: between)).graph.UnionHas l₂ stack) := by
  obtain ⟨n₁, t₁, result₁, ⟨sound₁, -⟩, keeps₁, union₁⟩ :=
    (reached_sound before).mergeAll table l₁
  obtain ⟨n₂, t₂, result₂, ⟨sound₂, grows₂⟩, keeps₂, union₂⟩ :=
    (reached_sound (before ++ .mergeAll table l₁ :: between)).mergeAll table l₂
  have le := keeps₁.le (sound₁.tables table)
  have grows : t₁.Grows t₂ := (grows_reached sound₁ (by rw [exec, result₁]; rfl)).trans grows₂
  have kept := keeps₁.grow (sound₁.tables table) grows.graph (grows.tables table)
  refine ⟨n₁, t₁, n₂, t₂, result₁, result₂, fun stack => ?_, ?_⟩
  · rw [standsFor_some le, union₁ names₁]
  · rw [kept.eq_iff (sound₂.tables table) keeps₂]
    refine forall_congr' fun stack => ?_
    rw [grows.graph.hasStack le, union₁ names₁, union₂ names₂]

/-- Order and repetition do not matter. -/
theorem mergeAll_eq_iff_same_union_twoCalls :
    ∃ n t₁ t₂, (reached twoCalls).mergeAll 0 [some 1, some 2] = .ok (n, t₁) ∧
      (reached (twoCalls ++ [.mergeAll 0 [some 1, some 2]])).mergeAll 0 [some 2, some 1, some 2] =
        .ok (n, t₂) := by
  have names : ∀ n ∈ [some 1, some 2], (reached twoCalls).graph.Names n :=
    List.forall_mem_cons.mpr ⟨names_twoCalls.1, List.forall_mem_singleton.mpr names_twoCalls.2⟩
  have names' : ∀ n ∈ [some 2, some 1, some 2], (reached twoCalls).graph.Names n :=
    List.forall_mem_cons.mpr ⟨names_twoCalls.2, names⟩
  have grows := (reached_grows twoCalls [.mergeAll 0 [some 1, some 2]]).graph
  obtain ⟨n₁, t₁, n₂, t₂, result₁, result₂, -, iff⟩ :=
    mergeAll_eq_iff_same_union twoCalls [] 0 names fun n mem => (names' n mem).grow grows
  obtain rfl : n₁ = n₂ := iff.mpr fun stack => by
    rw [grows.unionHas names']
    simpa [UnionHas, or_comm] using Or.inr
  exact ⟨n₁, t₁, t₂, result₁, result₂⟩

end ContextStore

end GrammarNet
