import GrammarNet.Proofs.CarriedResults

/-!
In which order canonical nodes are found.

A node is put off until all of its callers have canonical nodes, and each time it comes to the front
again its callers are looked at again. So the work list may hold a node many times. But once a node
was rebuilt above its canonical callers, it is in the map, and what is in the map is only dropped
from the work list. Therefore each node is rebuilt in one round at most, on however many ways it is
reached, and in none when the map was carried over and has it already. This holds for all maps. What
the map gives for a node has its tree when the map is trusted; in the place of a node that the map
knew, another node counts as done.

* `Canonizing.Rebuilds`: the turn of a node, with what the round does (`Canonizing.Rebuilds.round`)
  and what all other rounds do not (`Canonizing.round_of_not_rebuilds`).
* `canonical_rebuilds_once`: finding a canonical node, from the first round to the last.
-/

namespace GrammarNet

open StackGraph StackEntry

namespace StackGraph

namespace Canonizing

variable {s t : Canonizing} {m k c : Nat} {h : StackGraph} {table : CanonicalTable}

/-- It is the turn of a node to be rebuilt and added to the table: it is in front and has no
canonical node yet, it is not the root, and none of its callers is missing. -/
structure Rebuilds (s : Canonizing) (m : Nat) : Prop where
  front : ∃ rest, s.work = m :: rest
  fresh : s.found.find? m = none
  inner : m ≠ root
  ready : s.missing m = []

/-- When a node is rebuilt, all of its callers have canonical nodes. -/
theorem Rebuilds.exists_found {r : Int} (rebuilds : s.Rebuilds m)
    (mem : .call r c ∈ s.graph.entries m) : ∃ d, s.found.find? c = some d :=
  Canonizing.exists_found rebuilds.ready (List.mem_filterMap.mpr ⟨_, mem, rfl⟩)

/-- The node that the table has for the rebuilt node is the canonical node of both. -/
theorem Rebuilds.round {rest : List Nat} (rebuilds : s.Rebuilds m) (front : s.work = m :: rest)
    (result : s.graph.rebuild s.found m = .ok (k, h))
    (added : s.table.add h (some k) = (c, table)) :
    canonicalRound s = .next ⟨h, table, (s.found.record m c).record c c, rest⟩ := by
  have ready := rebuilds.ready
  unfold missing at ready
  unfold canonicalRound
  simp [front, rebuilds.fresh, rebuilds.inner, ready, result, added]

/-- A round in which no node is rebuilt makes no node, and leaves the table as it is. -/
theorem round_of_not_rebuilds (round : canonicalRound s = .next t) (idle : ∀ m, ¬ s.Rebuilds m) :
    t.graph = s.graph ∧ t.table = s.table := by
  unfold canonicalRound at round
  split at round
  · cases round
  · next m rest front =>
      split at round
      · cases round
        exact ⟨rfl, rfl⟩
      · next fresh =>
          split at round
          · cases round
            exact ⟨rfl, rfl⟩
          · next inner =>
              split at round
              · next ready =>
                  refine absurd ?_ (idle m)
                  exact
                    { front := ⟨rest, front⟩
                      fresh := by simpa using fresh
                      inner := inner
                      ready := ready }
              · cases round
                exact ⟨rfl, rfl⟩

/-- What was found stays found. -/
theorem isSome_find?_next (known : (s.found.find? m).isSome = true)
    (round : canonicalRound s = .next t) : (t.found.find? m).isSome = true := by
  cases took_of_round round with
  | known _ _ => exact known
  | outer _ => exact Canonicals.find?_record_of_isSome known
  | rebuilt _ _ _ _ _ =>
      exact Canonicals.find?_record_of_isSome (Canonicals.find?_record_of_isSome known)
  | planned _ _ => exact known

theorem not_rebuilds_of_isSome (known : (s.found.find? m).isSome = true) : ¬ s.Rebuilds m := by
  intro rebuilds
  rw [rebuilds.fresh] at known
  cases known

end Canonizing

end StackGraph

namespace ContextStore

variable {s : ContextStore} {trust : Trust} {table : Nat} {map n : Option Nat}

/-- The search for a canonical node in its first round, when all that is planned is the node. -/
def canonizing (s : ContextStore) (table : Nat) (map n : Option Nat) : Canonizing where
  graph := s.graph
  table := s.tables table
  found := map.elim {} (s.maps table)
  work := [s.graph.resolveRef n]

/-- What holds in all rounds of the search. -/
theorem canonizing_sound {last : Canonizing} (sound : s.SoundFor trust)
    (reaches : Loop.Reaches canonicalRound (s.canonizing table map n) last) :
    last.Sound (trust.Map table map) s.graph (s.tables table) (s.graph.resolveRef n) :=
  reaches.invariant (fun _ _ sound => sound.next) <|
    Canonizing.sound_start sound.inRange (sound.tables table) (sound.startMap table map)
      (s.graph.resolveRef_le n)

/-- A node is rebuilt without fail, and what comes of it is added to the table. -/
theorem round_of_rebuilds {u : Canonizing} {m : Nat} (sound : s.SoundFor trust)
    (reaches : Loop.Reaches canonicalRound (s.canonizing table map n) u) (rebuilds : u.Rebuilds m) :
    ∃ k h c table' rest, u.graph.rebuild u.found m = .ok (k, h) ∧
      u.table.add h (some k) = (c, table') ∧ u.work = m :: rest ∧
      canonicalRound u = .next ⟨h, table', (u.found.record m c).record c c, rest⟩ := by
  obtain ⟨rest, front⟩ := rebuilds.front
  obtain ⟨k, h, c, table', result, added, -⟩ :=
    (canonizing_sound sound reaches).rebuild front rebuilds.ready
  exact ⟨k, h, c, table', rest, result, added, front, rebuilds.round front result added⟩

/-- There is one round at most in which a node is rebuilt. -/
theorem rebuilds_unique {m i j : Nat} (sound : s.SoundFor trust)
    (atI : (Loop.stateAfter canonicalRound i (s.canonizing table map n)).Rebuilds m)
    (atJ : (Loop.stateAfter canonicalRound j (s.canonizing table map n)).Rebuilds m) : i = j := by
  let start := s.canonizing table map n
  have reaches := fun i => Loop.reaches_stateAfter canonicalRound i start
  refine Loop.round_unique (fun u => Loop.Reaches canonicalRound start u ∧ u.Rebuilds m)
    (fun u => (u.found.find? m).isSome = true) ?_ (fun _ _ => Canonizing.isSome_find?_next)
    (fun u known acts => Canonizing.not_rebuilds_of_isSome known acts.2)
    ⟨reaches i, atI⟩ ⟨reaches j, atJ⟩
  rintro u ⟨reaches, rebuilds⟩
  obtain ⟨k, h, c, table', rest, -, -, -, round⟩ := round_of_rebuilds sound reaches rebuilds
  exact ⟨_, round, Canonicals.find?_record_of_isSome Canonicals.find?_record_self⟩

/-- A node that is in the map at the start is not rebuilt. -/
theorem fresh_of_rebuilds {m i : Nat}
    (rebuilds : (Loop.stateAfter canonicalRound i (s.canonizing table map n)).Rebuilds m) :
    (s.canonizing table map n).found.find? m = none := by
  rw [← Option.not_isSome_iff_eq_none]
  intro known
  have still := (Loop.reaches_stateAfter canonicalRound i (s.canonizing table map n)).invariant
    (motive := fun u => (u.found.find? m).isSome = true)
    (fun _ _ => Canonizing.isSome_find?_next) known
  exact Canonizing.not_rebuilds_of_isSome still rebuilds

/-- What a trusted map gives for a node is the one canonical node with its tree. -/
theorem keeps_and_sameTree_iff {u : Canonizing} {trusted : Prop} {g : StackGraph}
    {table : CanonicalTable} {n x y z : Nat} (sound : u.Sound trusted g table n) (trust : trusted)
    (found : u.found.find? x = some y) :
    (u.table.Keeps u.graph z ∧ u.graph.SameTree x z) ↔ z = y := by
  obtain ⟨keeps, alike⟩ := sound.found x y found
  have same := (alike trust).2
  rw [sameTree_iff_sameStacks]
  constructor
  · rintro ⟨keepsZ, sameZ⟩
    exact keepsZ.unique sound.table keeps (sameZ.symm.trans same)
  · rintro rfl
    exact ⟨keeps, same⟩

/-- The search comes to a round in which no work is left, and the node has a canonical node. -/
theorem canonizing_last (sound : s.SoundFor trust) (table : Nat) (map n : Option Nat) :
    ∃ last m, Loop.Reaches canonicalRound (s.canonizing table map n) last ∧
      (last.work = [] ∧ canonicalRound last = .done (.ok last)) ∧
      last.found.find? (s.graph.resolveRef n) = some m ∧
      (s.graph.resolveRef n ≠ root →
        s.graph.canonicalIn (s.tables table) (s.canonizing table map n).found n =
          .ok ⟨m, last.graph, last.table, last.found⟩) := by
  have ends : Loop.Ends canonicalRound (s.canonizing table map n) := canonical_ends ..
  obtain ⟨last, reaches, done⟩ := Loop.exists_last ends
  obtain ⟨result, known⟩ := (canonizing_sound sound reaches).done done
  obtain ⟨m, found⟩ := Option.isSome_iff_exists.mp known
  rw [result] at done
  have idle : last.work = [] := by
    rcases Canonizing.round_done done with ⟨idle, -⟩ | ⟨_, _, _, -, -, -, failed⟩
    · exact idle
    · cases failed
  refine ⟨last, m, reaches, ⟨idle, done⟩, found, fun inner => ?_⟩
  have run : Loop.run canonicalRound
      { graph := s.graph
        table := s.tables table
        found := (s.canonizing table map n).found
        work := [s.graph.resolveRef n] } (canonical_ends ..) = .ok last := result
  unfold canonicalIn
  simp only [inner, if_false, run, found]

end ContextStore

namespace TrackedStore

/-- Finding a canonical node from the first round to the last, whatever map is used. The search
comes to a round in which no work is left and the node has a canonical node, which is the answer
unless the node is the root. In all rounds, the map gives canonical nodes; and when it is trusted at
the start, it gives for each node in it the one canonical node that unfolds to the same tree.
Whenever a node is rebuilt, all of its callers have canonical nodes, so it is rebuilt without fail.
No other round makes a node or adds one to the table. A node is rebuilt in one round at most, and in
none when it was in the map before. -/
theorem canonical_rebuilds_once (steps : List StoreStep) (table : Nat) (map n : Option Nat) :
    let s := reached steps
    let g := s.store.graph
    let start := s.store.canonizing table map n
    let after := fun i => Loop.stateAfter canonicalRound i start
    (∃ k m, ((after k).work = [] ∧ canonicalRound (after k) = .done (.ok (after k))) ∧
        (after k).found.find? (g.resolveRef n) = some m ∧
        (g.resolveRef n ≠ root → g.canonicalIn start.table start.found n =
          .ok ⟨m, (after k).graph, (after k).table, (after k).found⟩)) ∧
      (∀ i x y, (after i).found.find? x = some y → (after i).table.Keeps (after i).graph y ∧
        (s.trust.Map table map → ∀ z,
          ((after i).table.Keeps (after i).graph z ∧ (after i).graph.SameTree x z) ↔ z = y)) ∧
      (∀ i m, (after i).Rebuilds m →
        (∀ r c, .call r c ∈ (after i).graph.entries m → ∃ d, (after i).found.find? c = some d) ∧
        ∃ k h c table' rest, (after i).graph.rebuild (after i).found m = .ok (k, h) ∧
          (after i).table.add h (some k) = (c, table') ∧ (after i).work = m :: rest ∧
          canonicalRound (after i) =
            .next ⟨h, table', ((after i).found.record m c).record c c, rest⟩) ∧
      (∀ i t, canonicalRound (after i) = .next t → (∀ m, ¬ (after i).Rebuilds m) →
        t.graph = (after i).graph ∧ t.table = (after i).table) ∧
      (∀ i m, (after i).Rebuilds m → start.found.find? m = none) ∧
      ∀ m i j, (after i).Rebuilds m → (after j).Rebuilds m → i = j := by
  intro s g start after
  have sound : s.Sound := reached_sound steps
  have reaches : ∀ i, Loop.Reaches canonicalRound start (after i) :=
    fun i => Loop.reaches_stateAfter canonicalRound i start
  refine ⟨?_, fun i x y here => ⟨?_, fun trust z => ?_⟩,
    fun i m rebuilds => ⟨fun r c => rebuilds.exists_found, ?_⟩,
    fun i t => Canonizing.round_of_not_rebuilds, fun i m => ContextStore.fresh_of_rebuilds,
    fun m i j => ContextStore.rebuilds_unique sound⟩
  · obtain ⟨last, m, reaches, done, found, given⟩ := ContextStore.canonizing_last sound table map n
    obtain ⟨k, rfl⟩ := reaches.exists_stateAfter
    exact ⟨k, m, done, found, given⟩
  · exact ((ContextStore.canonizing_sound sound (reaches i)).found x y here).1
  · exact ContextStore.keeps_and_sameTree_iff (ContextStore.canonizing_sound sound (reaches i))
      trust here
  · exact ContextStore.round_of_rebuilds sound (reaches i) rebuilds

/-- A run that makes three nodes, each of which is the caller of the next below two return states. -/
def sharedTwice : List StoreStep :=
  [.op (.single none ⟨14, by decide⟩),
    .op (.ofReturns [some 1, some 1] [⟨15, by decide⟩, ⟨16, by decide⟩]),
    .op (.ofReturns [some 2, some 2] [⟨15, by decide⟩, ⟨16, by decide⟩])]

/-- The node in the middle is planned twice, and is rebuilt in the seventh round alone. -/
theorem canonical_rebuilds_once_sharedTwice :
    let after := fun i =>
      Loop.stateAfter canonicalRound i ((reached sharedTwice).store.canonizing 0 none (some 3))
    (after 1).work = [2, 2, 3] ∧ ∀ i, (after i).Rebuilds 2 ↔ i = 6 := by
  intro after
  have seventh : (after 6).Rebuilds 2 :=
    { front := ⟨[2, 3], rfl⟩
      fresh := rfl
      inner := by decide
      ready := rfl }
  refine ⟨rfl, fun i => ⟨fun rebuilds => ?_, ?_⟩⟩
  · obtain ⟨-, -, -, -, -, unique⟩ := canonical_rebuilds_once sharedTwice 0 none (some 3)
    exact unique 2 i 6 rebuilds seventh
  · rintro rfl
    exact seventh

/-- A call in the place of another that the map knew counts as done, and stays with the canonical
node of the other. -/
theorem canonical_maps_replacement :
    Along Allows {} copyReplaced ∧
      ∃ last, Loop.Reaches canonicalRound
          ((reached copyReplaced).store.canonizing 0 (some 0) (some 3)) last ∧
        (last.work = [] ∧ canonicalRound last = .done (.ok last)) ∧
        last.found.find? 3 = some 1 ∧ ¬ last.graph.SameTree 3 1 := by
  obtain ⟨graph, -, known⟩ := known_copyReplaced
  let start := (reached copyReplaced).store.canonizing 0 (some 0) (some 3)
  have front : start.work = [3] := by
    change [(reached copyReplaced).store.graph.resolveRef (some 3)] = [3]
    rw [graph]
    rfl
  have here : start.found.find? 3 = some 1 := known
  have dropped : canonicalRound start = .next { start with work := [] } := by
    simp [canonicalRound, front, here]
  refine ⟨allows_copyReplaced, { start with work := [] }, .head dropped .start, ⟨rfl, rfl⟩, here,
    fun same => ?_⟩
  have same : copyStore.graph.SameTree 3 1 := graph ▸ same
  exact not_sameTree_copyStore (sameTree_iff_sameStacks.mpr same.sameStacks.symm)

end TrackedStore

end GrammarNet
