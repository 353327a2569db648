import GrammarNet.Lookahead.Expected
import GrammarNet.Proofs.RuleClosed

/-!
Parse chains and the nodes made from them.

A valid chain names a state with a call on every level but the outermost. It resumes at the states
at which these calls go on, and the node made from it spells these states: it stands for the one
stack that returns to them in turn (`ofChain_spells`).
-/

namespace GrammarNet

/-- Every level of the chain but the outermost names a state that has a call. -/
structure ParseChain.Valid (net : Network) (chain : ParseChain) : Prop where
  calls : ∀ i ∈ chain.dropLast, ∃ s, net.state? i = some s ∧
    ∃ t ∈ s.transitions, t.label.follow? ≠ none
  outermost : ∀ i ∈ chain.getLast?, i = -1

/-- The chain with the states at which its calls go on. -/
inductive ParseChain.Resumes (net : Network) : ParseChain → List Nat → Prop where
  | none : Resumes net [] []
  | outermost : Resumes net [-1] []
  | call {i : Int} {follow : Nat} {chain : ParseChain} {follows : List Nat} :
      net.callFollow i = .ok follow → chain ≠ [] → Resumes net chain follows →
      Resumes net (i :: chain) (follow :: follows)

namespace Network

variable {net : Network}

theorem state?_eq_some {i : Int} {s : State} (h : net.state? i = some s) :
    0 ≤ i ∧ net.get? i.toNat = some s := by
  unfold state? at h
  split at h
  · cases h
  · exact ⟨by omega, h⟩

/-- A state with a call goes on somewhere. -/
theorem callFollow_of_call {i : Int} {s : State} {t : Transition} (hs : net.state? i = some s)
    (mem : t ∈ s.transitions) (call : t.label.follow? ≠ none) :
    ∃ follow, net.callFollow i = .ok follow := by
  have found : s.call? ≠ none := by
    intro absent
    have := List.findSome?_eq_none_iff.mp absent t mem
    exact call (Option.map_eq_none_iff.mp this)
  obtain ⟨⟨t', follow⟩, first⟩ := Option.ne_none_iff_exists'.mp found
  exact ⟨follow, by simp [callFollow, hs, first]⟩

/-- What goes on after a call is in the label of an edge. -/
theorem edge_of_callFollow {i : Int} {follow : Nat} (h : net.callFollow i = .ok follow) :
    ∃ s, net.state? i = some s ∧ ∃ t ∈ s.transitions, t.label.follow? = some follow := by
  unfold callFollow at h
  split at h
  · next t follow' found =>
      cases h
      obtain ⟨s, hs, first⟩ := Option.bind_eq_some_iff.mp found
      obtain ⟨t', mem, first⟩ := List.exists_of_findSome?_eq_some first
      obtain ⟨f, label, pair⟩ := Option.map_eq_some_iff.mp first
      cases pair
      exact ⟨s, hs, t, mem, label⟩
  · cases h

theorem RuleClosed.callFollow_live (closed : net.RuleClosed) {i : Int} {follow : Nat}
    (h : net.callFollow i = .ok follow) : 0 ≤ i ∧ (net.get? follow).isSome := by
  obtain ⟨s, hs, t, mem, label⟩ := edge_of_callFollow h
  obtain ⟨nonneg, hs⟩ := state?_eq_some hs
  exact ⟨nonneg, (closed.live _ s hs t mem).2 follow (by simp [label])⟩

end Network

theorem ParseChain.valid_outermost (net : Network) : ParseChain.Valid net [-1] where
  calls := by simp
  outermost := by simp

/-- One more level inside of a chain. -/
theorem ParseChain.Valid.call {net : Network} {chain : ParseChain} {i : Int} {s : State}
    {t : Transition} (valid : chain.Valid net) (inner : chain ≠ []) (hs : net.state? i = some s)
    (mem : t ∈ s.transitions) (call : t.label.follow? ≠ none) :
    ParseChain.Valid net (i :: chain) where
  calls := by
    intro j hj
    rw [List.dropLast_cons_of_ne_nil inner] at hj
    rcases List.mem_cons.mp hj with rfl | hj
    · exact ⟨s, hs, t, mem, call⟩
    · exact valid.calls j hj
  outermost := by
    rw [List.getLast?_cons_of_ne_nil inner]
    exact valid.outermost

theorem ParseChain.Valid.resumes {net : Network} {chain : ParseChain} (valid : chain.Valid net) :
    ∃ follows, chain.Resumes net follows := by
  induction chain with
  | nil => exact ⟨[], .none⟩
  | cons i chain ih =>
      cases chain with
      | nil =>
          obtain rfl := valid.outermost i rfl
          exact ⟨[], .outermost⟩
      | cons j chain =>
          obtain ⟨s, hs, t, mem, call⟩ := valid.calls i List.mem_cons_self
          obtain ⟨follow, here⟩ := Network.callFollow_of_call hs mem call
          obtain ⟨follows, rest⟩ := ih
            { calls := fun k hk => valid.calls k (List.mem_cons_of_mem i hk)
              outermost := fun k hk => valid.outermost k hk }
          exact ⟨follow :: follows, .call here (by simp) rest⟩

/-- The states at which a chain resumes are in the network. -/
theorem ParseChain.Resumes.live {net : Network} {chain : ParseChain} {follows : List Nat}
    (resumes : chain.Resumes net follows) (closed : net.RuleClosed) :
    ∀ follow ∈ follows, (net.get? follow).isSome := by
  induction resumes with
  | none => simp
  | outermost => simp
  | call here _ _ ih =>
      intro f mem
      rcases List.mem_cons.mp mem with rfl | mem
      · exact (closed.callFollow_live here).2
      · exact ih f mem

/-! ### The node of a chain -/

namespace StackGraph

variable {g h : StackGraph}

/-- The node stands for one stack, which returns to these states in turn. -/
inductive Spells (g : StackGraph) : Nat → List Nat → Prop where
  | root : Spells g root []
  | call {n c follow : Nat} {follows : List Nat} :
      g.entries n = [.call follow c] → Spells g c follows → Spells g n (follow :: follows)

/-- A node spells the same when the graph grows. -/
theorem Spells.grow {n : Nat} {follows : List Nat} (spells : g.Spells n follows)
    (same : ∀ m ≤ n, h.entries m = g.entries m) : h.Spells n follows := by
  induction spells with
  | root => exact .root
  | @call n c follow follows entries _ ih =>
      have less : c < n := caller_lt (by rw [entries]; exact List.mem_cons_self) rfl
      refine .call ?_ (ih fun m le => same m (by omega))
      rw [same n (Nat.le_refl n), entries]

/-- What a new node returns to. -/
theorem single_spec {n : Nat} {r : Int} (le : n ≤ g.nodes.size) (apart : r ≠ StackEntry.endMark) :
    (g.single (some n) r).1 = g.nodes.size + 1 ∧
      (g.single (some n) r).2.nodes.size = g.nodes.size + 1 ∧
      ∀ m, (g.single (some n) r).2.entries m =
        if m = g.nodes.size + 1 then [.call r n] else g.entries m := by
  have resolved : g.resolveRef (some n) = n := if_pos le
  unfold StackGraph.single
  split
  · next h => exact absurd h apart
  · refine ⟨rfl, size_push .., fun m => (entries_push ..).trans ?_⟩
    rw [resolved]

/-- One more call on top of a node. -/
theorem Spells.single {n follow : Nat} {follows : List Nat} (spells : g.Spells n follows)
    (le : n ≤ g.nodes.size) (apart : (follow : Int) ≠ StackEntry.endMark) :
    (g.single (some n) follow).1 ≤ (g.single (some n) follow).2.nodes.size ∧
      (g.single (some n) follow).2.Spells (g.single (some n) follow).1 (follow :: follows) := by
  obtain ⟨node, size, entries⟩ := single_spec le apart
  refine ⟨by omega, .call ?_ (spells.grow fun m below => ?_)⟩
  · rw [entries, if_pos node]
  · rw [entries, if_neg (by omega)]

/-- Making the calls of a list and then one more. -/
theorem enterCalls_append {net : Network} {n : Nat} {i : Int} {levels : List Int} :
    g.enterCalls net n (levels ++ [i]) =
      match g.enterCalls net n levels with
      | .error e => .error e
      | .ok (m, g') =>
          match net.callFollow i with
          | .error e => .error e
          | .ok follow => .ok (g'.single (some m) follow) := by
  induction levels generalizing g n with
  | nil =>
      rw [List.nil_append, enterCalls, enterCalls]
      cases net.callFollow i <;> rfl
  | cons j levels ih =>
      rw [List.cons_append, enterCalls, enterCalls]
      cases net.callFollow j with
      | error e => rfl
      | ok follow => exact ih

/-- The node of a chain returns to the states at which its calls go on. -/
theorem ofChain_spells {net : Network} {chain : ParseChain} {follows : List Nat}
    (closed : net.RuleClosed) (small : (net.states.size : Int) ≤ StackEntry.endMark)
    (resumes : chain.Resumes net follows) :
    ∃ n g', g.ofChain net chain = .ok (n, g') ∧ n ≤ g'.nodes.size ∧ g'.Spells n follows := by
  induction resumes with
  | none => exact ⟨root, g, rfl, Nat.zero_le _, .root⟩
  | outermost => exact ⟨root, g, rfl, Nat.zero_le _, .root⟩
  | @call i follow chain follows here inner _ ih =>
      obtain ⟨n, g', made, le, spells⟩ := ih
      have apart : (follow : Int) ≠ StackEntry.endMark := by
        obtain ⟨s, hs⟩ := Option.isSome_iff_exists.mp (closed.callFollow_live here).2
        have := Lookahead.lt_size_of_get? hs
        omega
      refine ⟨_, _, ?_, spells.single le apart⟩
      unfold ofChain at made ⊢
      rw [List.dropLast_cons_of_ne_nil inner, List.reverse_cons, enterCalls_append, made]
      simp [here]

end StackGraph

end GrammarNet
