import GrammarNet.StackGraph.Canonical

/-!
The nodes below a node, each once, in the order in which a walk along the entries meets them.
-/

namespace GrammarNet

namespace StackGraph

/-- A listing under way: the nodes still to be entered and those already listed, last first. -/
structure Listing where
  work : List Nat
  met : Std.TreeSet Nat := ∅
  listed : List Nat := []

/-- Lists the node in front, unless it was listed, and plans to enter its callers. -/
def listRound (g : StackGraph) (s : Listing) : Round Listing (List Nat) :=
  match s.work with
  | [] => .done s.listed.reverse
  | n :: rest =>
      if s.met.contains n then .next { s with work := rest }
      else
        .next
          { work := callers (g.entries n) ++ rest
            met := s.met.insert n
            listed := n :: s.listed }

/-- A listing ends: every node is listed once. -/
theorem list_ends (g : StackGraph) (n : Nat) : Loop.Ends g.listRound { work := [n] } := by
  refine Loop.Ends.of_measure (fun s => ∀ m ∈ s.work, m ≤ n)
    (fun s => ((List.range (n + 1)).countP fun m => !s.met.contains m, s.work.length))
    ?_ (by simp)
  rintro ⟨work, met, listed⟩ t inv h
  unfold listRound at h
  split at h
  · cases h
  · next m rest hw =>
      simp only at hw
      subst hw
      have hm := inv m List.mem_cons_self
      have hrest := fun k hk => inv k (List.mem_cons_of_mem _ hk)
      split at h
      · cases h
        exact ⟨hrest, .inr ⟨rfl, by simp⟩⟩
      · next fresh =>
          cases h
          refine ⟨fun k hk => ?_, .inl ?_⟩
          · rcases List.mem_append.1 hk with hk | hk
            · obtain ⟨e, he, hc⟩ := List.mem_filterMap.1 hk
              have := caller_lt he hc
              omega
            · exact hrest k hk
          · refine Loop.countP_not_lt (List.mem_range.2 (by omega)) fresh
              Std.TreeSet.contains_insert_self fun k seen => ?_
            rw [Std.TreeSet.contains_insert, seen, Bool.or_true]

/-- The node and all nodes below it, each before its callers. -/
def reachable (g : StackGraph) (n : Nat) : List Nat :=
  Loop.run g.listRound { work := [n] } (g.list_ends n)

end StackGraph

end GrammarNet
