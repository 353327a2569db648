import GrammarNet.Loop
import GrammarNet.StackGraph.Basic
import Std.Data.TreeSet

/-!
Equality of stack nodes.

Two nodes are the same when their return states agree, all the way down to the ends of their
stacks. The comparison goes through pairs of nodes and looks at each pair once, so shared callers
are not compared again; nodes with different digests are told apart at once.
-/

namespace GrammarNet

namespace StackGraph

/-- A comparison under way: the pairs still to be compared and those already met. -/
structure Comparison where
  work : List (Nat × Nat)
  met : Std.TreeSet (List Nat) := ∅

/-- The callers of two lists of entries, side by side. -/
def callerPairs (xs ys : List StackEntry) : List (Nat × Nat) :=
  (xs.zip ys).filterMap fun (x, y) =>
    match x.caller?, y.caller? with
    | some c, some d => some (c, d)
    | _, _ => none

theorem mem_callerPairs {xs ys : List StackEntry} {c d : Nat} (h : (c, d) ∈ callerPairs xs ys) :
    (∃ x ∈ xs, x.caller? = some c) ∧ ∃ y ∈ ys, y.caller? = some d := by
  obtain ⟨⟨x, y⟩, hm, h⟩ := List.mem_filterMap.1 h
  obtain ⟨hx, hy⟩ := List.of_mem_zip hm
  simp only at h
  split at h
  · next c' d' hc hd =>
      cases h
      exact ⟨⟨x, hx, hc⟩, y, hy, hd⟩
  · cases h

/-- Compares one pair of nodes and plans the comparison of their callers. -/
def compareRound (g : StackGraph) (s : Comparison) : Round Comparison Bool :=
  match s.work with
  | [] => .done true
  | (a, b) :: rest =>
      if a = b ∨ s.met.contains [a, b] then .next { s with work := rest }
      else if g.digest a = g.digest b ∧ g.returns a = g.returns b then
        .next
          { work := callerPairs (g.entries a) (g.entries b) ++ rest
            met := s.met.insert [a, b] }
      else .done false

/-- All pairs of numbers up to two bounds. -/
def pairsUpTo (a b : Nat) : List (Nat × Nat) :=
  (List.range (a + 1)).flatMap fun x => (List.range (b + 1)).map fun y => (x, y)

@[simp] theorem mem_pairsUpTo {a b x y : Nat} : (x, y) ∈ pairsUpTo a b ↔ x ≤ a ∧ y ≤ b := by
  simp only [pairsUpTo, List.mem_flatMap, List.mem_range, List.mem_map, Prod.mk.injEq]
  constructor
  · rintro ⟨_, h, _, h', rfl, rfl⟩
    omega
  · rintro ⟨h, h'⟩
    exact ⟨x, by omega, y, by omega, rfl, rfl⟩

/-- A comparison ends: the pairs it plans are older than the two nodes, and each is met once. -/
theorem compare_ends (g : StackGraph) (a b : Nat) :
    Loop.Ends g.compareRound { work := [(a, b)] } := by
  refine Loop.Ends.of_measure (fun s => ∀ p ∈ s.work, p.1 ≤ a ∧ p.2 ≤ b)
    (fun s => ((pairsUpTo a b).countP fun p => !s.met.contains [p.1, p.2], s.work.length))
    ?_ (by simp)
  rintro ⟨work, met⟩ t inv h
  unfold compareRound at h
  split at h
  · cases h
  · next x y rest hw =>
      simp only at hw
      subst hw
      obtain ⟨hx, hy⟩ := inv (x, y) List.mem_cons_self
      simp only at hx hy
      have hrest := fun p hp => inv p (List.mem_cons_of_mem _ hp)
      split at h
      · cases h
        exact ⟨hrest, .inr ⟨rfl, by simp⟩⟩
      · next fresh =>
          split at h
          · cases h
            refine ⟨fun p hp => ?_, .inl ?_⟩
            · rcases List.mem_append.1 hp with hp | hp
              · obtain ⟨⟨e, he, hc⟩, f, hf, hd⟩ := mem_callerPairs hp
                have := caller_lt he hc
                have := caller_lt hf hd
                omega
              · exact hrest p hp
            · refine Loop.countP_not_lt (a := (x, y)) (by simp [hx, hy])
                (fun seen => fresh (.inr seen)) Std.TreeSet.contains_insert_self fun p seen => ?_
              rw [Std.TreeSet.contains_insert, seen, Bool.or_true]
          · cases h

/-- The two nodes have the same stacks. -/
def same (g : StackGraph) (a b : Nat) : Bool :=
  Loop.run g.compareRound { work := [(a, b)] } (g.compare_ends a b)

end StackGraph

end GrammarNet
