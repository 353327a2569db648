import GrammarNet.StackGraph.Basic

/-!
The call stacks that a node stands for.

A stack is the list of its return states, innermost first. `StackGraph.HasStack g n stack` says
that the node `n` stands for this stack among others: an entry for the end gives the empty stack,
and an entry that returns to a state puts this state on top of each stack of its callers.
-/

namespace GrammarNet

namespace StackGraph

/-- The node stands for this stack. -/
inductive HasStack (g : StackGraph) : Nat → List Int → Prop where
  | ended {n : Nat} : .ended ∈ g.entries n → HasStack g n []
  | call {n caller : Nat} {returnTo : Int} {stack : List Int} :
      .call returnTo caller ∈ g.entries n → HasStack g caller stack →
      HasStack g n (returnTo :: stack)

theorem hasStack_nil {g : StackGraph} {n : Nat} : g.HasStack n [] ↔ .ended ∈ g.entries n :=
  ⟨fun | .ended h => h, .ended⟩

theorem hasStack_cons {g : StackGraph} {n : Nat} {r : Int} {stack : List Int} :
    g.HasStack n (r :: stack) ↔ ∃ c, .call r c ∈ g.entries n ∧ g.HasStack c stack :=
  ⟨fun | .call h hs => ⟨_, h, hs⟩, fun ⟨_, h, hs⟩ => .call h hs⟩

/-- The root stands for the empty stack alone. -/
theorem hasStack_root {g : StackGraph} {stack : List Int} :
    g.HasStack root stack ↔ stack = [] := by
  constructor
  · rintro (h | ⟨h, _⟩)
    · rfl
    · change _ ∈ StackNode.rootEntries at h
      simp [StackNode.rootEntries] at h
  · rintro rfl
    exact .ended List.mem_cons_self

/-- Every node stands for some stack. -/
theorem exists_hasStack (g : StackGraph) (n : Nat) : ∃ stack, g.HasStack n stack := by
  induction n using Nat.strongRecOn with
  | ind n ih =>
      cases hl : g.entries n with
      | nil => exact absurd hl (g.entries_ne_nil n)
      | cons e rest =>
          have he : e ∈ g.entries n := hl ▸ List.mem_cons_self
          cases e with
          | ended => exact ⟨[], .ended he⟩
          | call r c =>
              obtain ⟨stack, hs⟩ := ih c (caller_lt he rfl)
              exact ⟨r :: stack, .call he hs⟩

/-- A node keeps its stacks when the graph grows. -/
theorem hasStack_congr {g h : StackGraph} {n : Nat} {stack : List Int}
    (same : ∀ m, m ≤ n → h.entries m = g.entries m) :
    h.HasStack n stack ↔ g.HasStack n stack := by
  induction stack generalizing n with
  | nil => rw [hasStack_nil, hasStack_nil, same n (Nat.le_refl n)]
  | cons r stack ih =>
      rw [hasStack_cons, hasStack_cons, same n (Nat.le_refl n)]
      refine exists_congr fun c => and_congr_right fun hc => ih fun m hm => same m ?_
      have := caller_lt hc rfl
      omega

end StackGraph

end GrammarNet
