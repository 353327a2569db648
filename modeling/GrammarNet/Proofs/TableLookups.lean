import GrammarNet.Proofs.TableContents

/-!
Looking up nodes in a table.

A table finds a node by its entries, and compares their callers by number. What it finds has the
stacks of the node, so it is the canonical node. It finds the node that it has for these stacks when
the callers of the node that is looked up are canonical themselves: kept nodes with the same stacks
are one node, so the entries of both are the same then.

* `CanonicalTable.get?_eq_some_iff`: what is found, by entries alone.
* `CanonicalTable.get?_of_keeps`: above canonical callers, what is found, by stacks.
* `lookup_eq_canonical`: looking up at all moments of a run.
-/

namespace GrammarNet

open StackGraph StackEntry

namespace CanonicalTable

variable {table : CanonicalTable} {g : StackGraph} {a b n m : Nat} {x : Option Nat}

theorem get?_root (outer : g.resolveRef x = root) : table.get? g x = some root := by
  rw [get?, if_pos outer, outer]

/-- The node that is found for a node is held, and has the same entries. -/
theorem get?_eq_some_iff (sound : table.Sound g) (inner : g.resolveRef x ≠ root) :
    table.get? g x = some m ↔
      (∃ k : List Int, table.nodes[k]? = some m) ∧
        g.entries m = g.entries (g.resolveRef x) := by
  have opened : table.get? g x = table.find? g (g.resolveRef x) := if_neg inner
  rw [opened]
  constructor
  · intro found
    exact ⟨⟨_, found⟩, (key_inj (sound.stored _ m found).2).symm⟩
  · rintro ⟨⟨k, here⟩, entries⟩
    rw [find?, ← entries]
    exact sound.find?_eq here

/-- The entries of nodes with the same stacks are the same above kept callers. -/
theorem entries_eq_of_sameStacks (sound : table.Sound g)
    (callersA : ∀ r c, .call r c ∈ g.entries a → table.Keeps g c)
    (callersB : ∀ r c, .call r c ∈ g.entries b → table.Keeps g c) (same : g.SameStacks a b) :
    g.entries a = g.entries b :=
  eq_of_matches_eq <| same.matches fun r c d memA memB below =>
    (callersA r c memA).unique sound (callersB r d memB) below

/-- Above kept callers, a node is found exactly when it is held and has the same stacks. -/
theorem get?_of_keeps (sound : table.Sound g) (inner : g.resolveRef x ≠ root)
    (callers : ∀ r c, .call r c ∈ g.entries (g.resolveRef x) → table.Keeps g c) :
    table.get? g x = some m ↔
      (∃ k : List Int, table.nodes[k]? = some m) ∧ g.SameStacks (g.resolveRef x) m := by
  rw [get?_eq_some_iff sound inner]
  refine and_congr_right fun ⟨k, here⟩ => ⟨fun entries => sameStacks_of_entries entries.symm, ?_⟩
  exact fun same => (entries_eq_of_sameStacks sound callers (sound.closed k m here) same).symm

end CanonicalTable

namespace ContextStore

variable {s : ContextStore} {table m : Nat} {x : Option Nat}

/-- A kept node with the stacks of the node that is asked for is the canonical node. -/
theorem Sound.canonical_eq (sound : s.Sound) (keeps : (s.tables table).Keeps s.graph m)
    (same : s.graph.SameStacks (s.graph.resolveRef x) m) (map : Option Nat) :
    ∃ t, s.canonical table map x = .ok (m, t) := by
  obtain ⟨m', t, result, ⟨sound', grows⟩, keeps', same'⟩ := sound.canonical table map x
  have kept := keeps.grow (sound.tables table) grows.graph (grows.tables table)
  have later : t.graph.SameStacks (s.graph.resolveRef x) m :=
    (grows.graph.sameStacks (s.graph.resolveRef_le x) (keeps.le (sound.tables table))).mpr same
  obtain rfl : m' = m := keeps'.unique (sound'.tables table) kept (same'.symm.trans later)
  exact ⟨t, result⟩

/-- Looking up a node in a table, at any moment of a run. The root is found as itself. For any other
node, what is found is the node of the table that unfolds to the same tree, and the canonical node,
so nothing is found when the table has no node for the tree. Above callers that are canonical, the
node of the table is found whenever there is one. What is found is read off the graph and the table,
so both stay as they are. -/
theorem lookup_eq_canonical (ops : List ContextOp) (table : Nat) (x : Option Nat) :
    let s := reached ops
    let n := s.graph.resolveRef x
    let found := (s.tables table).get? s.graph x
    (n = root → found = some root) ∧
      (n ≠ root →
        (∀ m, found = some m → s.Stored table m ∧ s.graph.SameTree n m ∧
          ∀ map, ∃ t, s.canonical table map x = .ok (m, t)) ∧
        ((∀ m, s.Stored table m → ¬ s.graph.SameTree n m) → found = none) ∧
        ((∀ r c, .call r c ∈ s.graph.entries n → c = root ∨ s.Stored table c) →
          ∀ m, found = some m ↔ s.Stored table m ∧ s.graph.SameTree n m)) := by
  intro s n found
  have sound : s.Sound := reached_sound ops
  have kept := sound.tables table
  refine ⟨CanonicalTable.get?_root, fun inner => ?_⟩
  have right : ∀ m, found = some m → s.Stored table m ∧ s.graph.SameStacks n m := by
    intro m here
    obtain ⟨stored, entries⟩ := (CanonicalTable.get?_eq_some_iff kept inner).mp here
    exact ⟨stored, sameStacks_of_entries entries.symm⟩
  refine ⟨fun m here => ?_, fun missing => ?_, fun callers m => ?_⟩
  · obtain ⟨stored, same⟩ := right m here
    have keeps := (keeps_iff_stored sound).mpr (.inr stored)
    exact ⟨stored, sameTree_iff_sameStacks.mpr same, sound.canonical_eq keeps same⟩
  · rw [Option.eq_none_iff_forall_ne_some]
    intro m here
    obtain ⟨stored, same⟩ := right m here
    exact missing m stored (sameTree_iff_sameStacks.mpr same)
  · rw [sameTree_iff_sameStacks]
    exact CanonicalTable.get?_of_keeps kept inner fun r c mem =>
      (keeps_iff_stored sound).mpr (callers r c mem)

/-- A run that makes a chain of two calls. -/
def chain : List ContextOp :=
  [.single none ⟨9, by decide⟩, .single (some 1) ⟨7, by decide⟩]

/-- A run that makes the chain once more, and its upper call above the first lower call. -/
def secondChain : List ContextOp :=
  [.single none ⟨9, by decide⟩, .single (some 3) ⟨7, by decide⟩, .single (some 1) ⟨7, by decide⟩]

/-- The chain is made canonical before it is made again. -/
def chainAgain : List ContextOp :=
  chain ++ .canonical 0 none (some 2) :: secondChain

/-- A table that holds the chain. -/
def chainTable : CanonicalTable where
  nodes := ((∅ : Std.TreeMap (List Int) Nat).insert (CanonicalTable.key [.call 9 root]) 1).insert
    (CanonicalTable.key [.call 7 1]) 2

/-- The store after the chain is made canonical. -/
def chainStore : ContextStore :=
  { reached chain with tables := Function.update (reached chain).tables 0 chainTable }

theorem canonical_chain : (reached chain).canonical 0 none (some 2) = .ok (2, chainStore) := by
  let below := (({} : Canonicals).record root root).record 1 1
  exact canonical_of_runFor none 10
    ⟨(reached chain).graph, chainTable, ((below.record 1 1).record 2 2).record 2 2, []⟩
    (by decide) (by decide) rfl rfl

theorem reached_chainAgain : reached chainAgain = chainStore.run secondChain := by
  apply reached_eq_run
  rw [exec, canonical_chain]
  rfl

theorem stored_chainAgain : (reached chainAgain).Stored 0 1 ∧ (reached chainAgain).Stored 0 2 := by
  rw [reached_chainAgain]
  exact ⟨⟨CanonicalTable.key [.call 9 root], rfl⟩, ⟨CanonicalTable.key [.call 7 1], rfl⟩⟩

/-- The upper call that was made again is found. -/
theorem lookup_eq_canonical_chainAgain :
    ((reached chainAgain).tables 0).get? (reached chainAgain).graph (some 5) = some 2 ∧
      ∀ map, ∃ t, (reached chainAgain).canonical 0 map (some 5) = .ok (2, t) := by
  obtain ⟨lowerStored, upperStored⟩ := stored_chainAgain
  have entries : (reached chainAgain).graph.resolveRef (some 5) = 5 ∧
      (reached chainAgain).graph.entries 5 = [.call 7 1] ∧
      (reached chainAgain).graph.entries 2 = [.call 7 1] := by
    rw [reached_chainAgain]
    exact ⟨rfl, rfl, rfl⟩
  obtain ⟨named, upper, first⟩ := entries
  have looked := lookup_eq_canonical chainAgain 0 (some 5)
  simp only [named] at looked
  obtain ⟨right, -, complete⟩ := looked.2 (by decide)
  have callers : ∀ r c, .call r c ∈ (reached chainAgain).graph.entries 5 →
      c = root ∨ (reached chainAgain).Stored 0 c := by
    intro r c mem
    rw [upper] at mem
    cases List.mem_singleton.mp mem
    exact .inr lowerStored
  have same : (reached chainAgain).graph.SameTree 5 2 :=
    sameTree_iff_sameStacks.mpr (sameStacks_of_entries (upper.trans first.symm))
  have found := (complete callers 2).mpr ⟨upperStored, same⟩
  exact ⟨found, (right 2 found).2.2⟩

/-- The copy of the chain is not found, though the table holds a node for its tree, and the root is
found in a table that holds nothing. -/
theorem lookup_misses_copy :
    (((reached []).tables 0).get? (reached []).graph none = some root ∧
        ∀ m, ¬ (reached []).Stored 0 m) ∧
      ((reached chainAgain).tables 0).get? (reached chainAgain).graph (some 4) = none ∧
      (reached chainAgain).Stored 0 2 ∧ (reached chainAgain).graph.SameTree 4 2 := by
  have nothing : ∀ m, ¬ (reached []).Stored 0 m := by
    rintro m ⟨k, here⟩
    simp [reached, run] at here
  have entries : ((reached chainAgain).tables 0).get? (reached chainAgain).graph (some 4) = none ∧
      (reached chainAgain).graph.entries 3 = (reached chainAgain).graph.entries 1 ∧
      (reached chainAgain).graph.entries 4 = [.call 7 3] ∧
      (reached chainAgain).graph.entries 2 = [.call 7 1] := by
    rw [reached_chainAgain]
    exact ⟨rfl, rfl, rfl, rfl⟩
  obtain ⟨missed, lower, copy, first⟩ := entries
  have same : (reached chainAgain).graph.SameStacks 4 2 := by
    apply sameStacks_of_matches
    rw [copy, first]
    exact .cons (.call (sameStacks_of_entries lower)) .nil
  exact ⟨⟨rfl, nothing⟩, missed, stored_chainAgain.2, sameTree_iff_sameStacks.mpr same⟩

end ContextStore

end GrammarNet
