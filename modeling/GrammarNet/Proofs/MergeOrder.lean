import GrammarNet.Proofs.MergeIncluded
import Mathlib.Data.List.Induction

/-!
In which order a merge combines nodes.

A merge puts two nodes off as long as a pair of callers below equal return states has no result. It
finds these pairs on one way through the entries of both nodes, and combines the entries on another.
Both ways come by the same pairs because entries ascend, so whenever two nodes are combined, all
results that are needed are there (`Merging.Combines.merged`).

The work list may hold a pair many times, and in both orders. But a result is written only when
neither order has one, and results stay. So the memo never has results for both orders
(`MergeMemo.Single`), and each pair is written in one round at most.

* `Merging.memo_of_round`: what one round does to the memo.
* `reached_single`: no run of operations leaves results for both orders.
* `merge_combines_finished`: a merge from its first round to its last.
-/

namespace GrammarNet

open StackGraph StackEntry

namespace MergeMemo

variable {memo : MergeMemo} {a b c d n : Nat}

/-- No two nodes have a result in both orders. -/
def Single (memo : MergeMemo) : Prop :=
  ∀ a b, [a, b] ∈ memo.results → [b, a] ∈ memo.results → a = b

theorem single_empty : Single {} := by
  intro a b here
  exact absurd here Std.TreeMap.not_mem_emptyc

theorem mem_record :
    [c, d] ∈ (memo.record a b n).results ↔ (a = c ∧ b = d) ∨ [c, d] ∈ memo.results := by
  simp [record, Std.TreeMap.mem_insertIfNew]

theorem find?_eq_none_iff :
    memo.find? a b = none ↔ [a, b] ∉ memo.results ∧ [b, a] ∉ memo.results := by
  rw [← not_or, ← find?_isSome_iff, Bool.not_eq_true, Option.isSome_eq_false_iff,
    Option.isNone_iff_eq_none]

/-- A result may be written for two nodes that have none in either order. -/
theorem Single.record (single : memo.Single) (fresh : memo.find? a b = none) :
    (memo.record a b n).Single := by
  obtain ⟨absent, absent'⟩ := find?_eq_none_iff.mp fresh
  intro c d here there
  rcases mem_record.mp here with ⟨rfl, rfl⟩ | here
  · rcases mem_record.mp there with ⟨rfl, -⟩ | there
    · rfl
    · exact absurd there absent'
  · rcases mem_record.mp there with ⟨rfl, rfl⟩ | there
    · exact absurd here absent'
    · exact single c d here there

end MergeMemo

namespace StackGraph

namespace Merging

variable {s t : Merging} {x y c d n : Nat} {h : StackGraph}

/-! ### The memo -/

/-- A round leaves the memo as it is, or writes one result, for a pair that has none in either
order. -/
theorem memo_of_round (round : mergeRound s = .next t) :
    t.memo = s.memo ∨
      ∃ x y n, s.memo.find? x y = none ∧ t.memo = s.memo.record x y n := by
  cases took_of_round round with
  | known _ _ => exact .inl rfl
  | @same x y _ _ fresh _ => exact .inr ⟨x, y, x, fresh, rfl⟩
  | @combined x y n _ _ _ fresh _ _ => exact .inr ⟨x, y, n, fresh, rfl⟩
  | planned _ _ _ => exact .inl rfl

/-- Results stay. -/
theorem isSome_find?_next (known : (s.memo.find? x y).isSome = true)
    (round : mergeRound s = .next t) : (t.memo.find? x y).isSome = true := by
  rcases memo_of_round round with same | ⟨x, y, n, -, written⟩
  · rwa [same]
  · rw [written]
    exact MergeMemo.find?_record_of_isSome known

theorem single_next (single : s.memo.Single) (round : mergeRound s = .next t) :
    t.memo.Single := by
  rcases memo_of_round round with same | ⟨x, y, n, fresh, written⟩
  · rwa [same]
  · rw [written]
    exact single.record fresh

/-- The round writes a result for the two nodes, in one order or in the other. -/
def Writes (s : Merging) (x y : Nat) : Prop :=
  ∃ t, mergeRound s = .next t ∧
    ([x, y] ∉ s.memo.results ∧ [x, y] ∈ t.memo.results ∨
      [y, x] ∉ s.memo.results ∧ [y, x] ∈ t.memo.results)

/-- A result is written for nodes that have none in either order. -/
theorem Writes.fresh (writes : s.Writes x y) : s.memo.find? x y = none := by
  obtain ⟨t, round, new⟩ := writes
  rcases memo_of_round round with same | ⟨a, b, n, fresh, written⟩
  · rw [same] at new
    rcases new with ⟨absent, here⟩ | ⟨absent, here⟩
    · exact absurd here absent
    · exact absurd here absent
  · rw [written, MergeMemo.mem_record, MergeMemo.mem_record] at new
    rcases new with ⟨absent, here⟩ | ⟨absent, here⟩
    · obtain ⟨rfl, rfl⟩ := here.resolve_right absent
      exact fresh
    · obtain ⟨rfl, rfl⟩ := here.resolve_right absent
      exact MergeMemo.find?_eq_none_iff.mpr (MergeMemo.find?_eq_none_iff.mp fresh).symm

/-- There is one round at most in which a result for two nodes is written. -/
theorem writes_unique {i j : Nat} (atI : (Loop.stateAfter mergeRound i s).Writes x y)
    (atJ : (Loop.stateAfter mergeRound j s).Writes x y) : i = j := by
  refine Loop.round_unique (fun s : Merging => s.Writes x y)
    (fun s => (s.memo.find? x y).isSome = true) ?_ (fun _ _ => isSome_find?_next) ?_ atI atJ
  · rintro s ⟨t, round, new⟩
    exact ⟨t, round, MergeMemo.find?_isSome_iff.mpr (new.imp And.right And.right)⟩
  · intro s known writes
    rw [writes.fresh] at known
    cases known

/-! ### Combining -/

/-- It is the turn of two nodes to be combined: they are in front and have no result, they are not
the same, and no pair of their callers is missing. -/
structure Combines (s : Merging) (x y : Nat) : Prop where
  front : ∃ rest, s.work = (x, y) :: rest
  fresh : s.memo.find? x y = none
  apart : s.graph.same x y = false
  ready : s.missing x y = []

/-- When two nodes are combined, their different callers below one return state have a result. -/
theorem Combines.merged {r : Int} (combines : s.Combines x y)
    (memL : .call r c ∈ s.graph.entries x) (memR : .call r d ∈ s.graph.entries y)
    (apart : c ≠ d) : ∃ m, s.memo.find? c d = some m :=
  exists_result combines.ready <|
    mem_sharedReturns_of_mem (s.graph.entries_pairwise x) (s.graph.entries_pairwise y) memL memR
      apart

/-- What is made of two nodes is their result, and the next pair comes to the front. -/
theorem Combines.round {rest : List (Nat × Nat)} (combines : s.Combines x y)
    (front : s.work = (x, y) :: rest) (result : s.graph.combine s.memo.find? x y = .ok (n, h)) :
    mergeRound s = .next { graph := h, memo := s.memo.record x y n, work := rest } := by
  have ready := combines.ready
  unfold missing at ready
  unfold mergeRound
  simp [front, combines.fresh, combines.apart, ready, result]

/-- A round in which no nodes are combined makes no node, and writes no result but for nodes that
are the same. -/
theorem round_of_not_combines (round : mergeRound s = .next t) (idle : ∀ x y, ¬ s.Combines x y) :
    t.graph = s.graph ∧ (t.memo = s.memo ∨
      ∃ x y, s.graph.same x y = true ∧ t.memo = s.memo.record x y x) := by
  unfold mergeRound at round
  split at round
  · cases round
  · next x y rest front =>
      split at round
      · cases round
        exact ⟨rfl, .inl rfl⟩
      · next fresh =>
          split at round
          · next same =>
              cases round
              exact ⟨rfl, .inr ⟨x, y, same, rfl⟩⟩
          · next apart =>
              split at round
              · next ready =>
                  refine absurd ?_ (idle x y)
                  exact
                    { front := ⟨rest, front⟩
                      fresh := by simpa using fresh
                      apart := by simpa using apart
                      ready := ready }
              · cases round
                exact ⟨rfl, .inl rfl⟩

end Merging

/-! ### Memos that merges have written -/

/-- A merge leaves no results for both orders when it finds none. -/
theorem merge_single {g : StackGraph} {memo : MergeMemo} {a b : Option Nat} {m : Merged}
    (single : memo.Single) (result : g.merge memo a b = .ok m) : m.memo.Single := by
  have last : ∀ s r, s.memo.Single → mergeRound s = .done r →
      ∀ h memo', r = .ok (h, memo') → memo'.Single := by
    intro s r single round h memo' done
    rcases Merging.round_done round with ⟨-, rfl⟩ | ⟨_, _, _, _, -, -, -, rfl⟩
    · cases done
      exact single
    · cases done
  unfold merge at result
  simp only at result
  generalize g.resolveRef a = a at *
  generalize g.resolveRef b = b at *
  split at result
  · cases result
    exact single
  · split at result
    · cases result
      exact single
    · split at result
      · cases result
      · next h memo' run =>
          split at result
          · cases result
            exact Loop.run_invariant (fun _ _ => Merging.single_next) last (merge_ends g memo a b)
              single h memo' run
          · cases result

end StackGraph

namespace ContextStore

variable {s : ContextStore}

/-- A merge in its first round, when all that is planned is the pair of the two nodes. -/
def merging (s : ContextStore) (memo a b : Option Nat) : Merging where
  graph := s.graph
  memo := memo.elim {} s.memos
  work := [(s.graph.resolveRef a, s.graph.resolveRef b)]

theorem startMemo_single (single : ∀ i, (s.memos i).Single) (memo : Option Nat) :
    (memo.elim {} s.memos : MergeMemo).Single := by
  cases memo with
  | none => exact MergeMemo.single_empty
  | some i => exact single i

theorem merge_memos_single {memo a b : Option Nat} {n : Nat} {t : ContextStore}
    (single : ∀ i, (s.memos i).Single) (result : s.merge memo a b = .ok (n, t)) (i : Nat) :
    (t.memos i).Single := by
  unfold ContextStore.merge at result
  cases merged : s.graph.merge (memo.elim {} s.memos) a b with
  | error e =>
      rw [merged] at result
      cases result
  | ok m =>
      have written := merge_single (startMemo_single single memo) merged
      rw [merged] at result
      cases result
      cases memo with
      | none => exact single i
      | some j =>
          by_cases same : i = j
          · subst same
            simpa using written
          · simpa [Function.update_of_ne same] using single i

/-- No operation leaves results for both orders in a memo. -/
theorem exec_single (single : ∀ i, (s.memos i).Single) (op : ContextOp) :
    ∀ i, ((s.exec op).memos i).Single := by
  let Holds : ContextStore → Prop := fun s => ∀ i, (s.memos i).Single
  cases op with
  | single caller returnTo => exact single
  | ofReturns callers returns => exact after_map (P := Holds) _ single fun _ => single
  | ofChain net chain fits => exact after_map (P := Holds) _ single fun _ => single
  | merge memo a b =>
      rw [exec]
      cases result : s.merge memo a b with
      | error e => exact single
      | ok made => exact merge_memos_single single result
  | mergeAll table nodes => exact after_map (P := Holds) _ single fun _ => single
  | canonical table map n => exact after_map (P := Holds) _ single fun _ => single

theorem reached_single (ops : List ContextOp) (i : Nat) : ((reached ops).memos i).Single := by
  induction ops using List.reverseRecOn generalizing i with
  | nil => exact MergeMemo.single_empty
  | append_singleton ops op ih =>
      rw [reached_concat]
      exact exec_single ih op i

/-! ### From the first round to the last -/

/-- What holds in all rounds of a merge. -/
theorem merging_sound {last : Merging} (sound : s.Sound) (memo a b : Option Nat)
    (reaches : Loop.Reaches mergeRound (s.merging memo a b) last) :
    last.Sound (Trust.all.Memo memo) s.graph (s.graph.resolveRef a) (s.graph.resolveRef b) :=
  reaches.invariant (fun _ _ sound => sound.next) <|
    Merging.sound_start sound.inRange (sound.startMemo memo) (s.graph.resolveRef_le a)
      (s.graph.resolveRef_le b)

/-- A merge comes to a round in which no work is left, and the two nodes have a result. -/
theorem merging_last (sound : s.Sound) (memo a b : Option Nat) :
    ∃ last n, Loop.Reaches mergeRound (s.merging memo a b) last ∧
      (last.work = [] ∧ mergeRound last = .done (.ok (last.graph, last.memo))) ∧
      last.memo.find? (s.graph.resolveRef a) (s.graph.resolveRef b) = some n ∧
      (s.graph.same (s.graph.resolveRef a) (s.graph.resolveRef b) = false →
        (s.merging memo a b).memo.find? (s.graph.resolveRef a) (s.graph.resolveRef b) = none →
        s.graph.merge (s.merging memo a b).memo a b = .ok ⟨n, last.graph, last.memo⟩) := by
  have ends : Loop.Ends mergeRound (s.merging memo a b) := merge_ends ..
  obtain ⟨last, reaches, done⟩ := Loop.exists_last ends
  obtain ⟨result, known⟩ := (merging_sound sound memo a b reaches).done done
  obtain ⟨n, found⟩ := Option.isSome_iff_exists.mp known
  rw [result] at done
  have idle : last.work = [] := by
    rcases Merging.round_done done with ⟨idle, -⟩ | ⟨_, _, _, _, -, -, -, failed⟩
    · exact idle
    · cases failed
  refine ⟨last, n, reaches, ⟨idle, done⟩, found, fun apart fresh => ?_⟩
  have run : Loop.run mergeRound
      { graph := s.graph
        memo := (s.merging memo a b).memo
        work := [(s.graph.resolveRef a, s.graph.resolveRef b)] } (merge_ends ..) =
      .ok (last.graph, last.memo) := result
  unfold StackGraph.merge
  simp only [apart, fresh, Bool.false_eq_true, if_false, run, found]

/-- A merge from its first round to its last, whatever memo it uses. It comes to a round in which no
work is left and the two nodes have a result, which the merge gives back when it had to look for it.
Whenever two nodes are combined, all their different callers below one return state have a result.
So combining does not fail: it gives a node for the stacks of both, and all entries of that node but
the end have callers. No other round makes a node, or writes a result for nodes that are not the
same. The memo never has a result for both orders of two nodes, and there is one round at most in
which a result for them is written. -/
theorem merge_combines_finished (ops : List ContextOp) (memo a b : Option Nat) :
    let g := (reached ops).graph
    let start := (reached ops).merging memo a b
    let after := fun i => Loop.stateAfter mergeRound i start
    (∃ k n, ((after k).work = [] ∧
          mergeRound (after k) = .done (.ok ((after k).graph, (after k).memo))) ∧
        (after k).memo.find? (g.resolveRef a) (g.resolveRef b) = some n ∧
        (g.same (g.resolveRef a) (g.resolveRef b) = false →
          start.memo.find? (g.resolveRef a) (g.resolveRef b) = none →
          g.merge start.memo a b = .ok ⟨n, (after k).graph, (after k).memo⟩)) ∧
      (∀ i x y, (after i).Combines x y →
        (∀ r c d, .call r c ∈ (after i).graph.entries x →
          .call r d ∈ (after i).graph.entries y → c ≠ d →
          ∃ m, (after i).memo.find? c d = some m) ∧
        ∃ n h rest, (after i).graph.combine (after i).memo.find? x y = .ok (n, h) ∧
          ((after i).work = (x, y) :: rest ∧
            mergeRound (after i) = .next ⟨h, (after i).memo.record x y n, rest⟩) ∧
          (after i).graph.Joined x y n h ∧ h.Ordered n) ∧
      (∀ i t, mergeRound (after i) = .next t → (∀ x y, ¬ (after i).Combines x y) →
        t.graph = (after i).graph ∧ (t.memo = (after i).memo ∨
          ∃ x y, (after i).graph.same x y = true ∧ t.memo = (after i).memo.record x y x)) ∧
      (∀ i, (after i).memo.Single) ∧
      ∀ x y i j, (after i).Writes x y → (after j).Writes x y → i = j := by
  intro g start after
  have sound := reached_sound ops
  have reaches : ∀ i, Loop.Reaches mergeRound start (after i) :=
    fun i => Loop.reaches_stateAfter mergeRound i start
  refine ⟨?_, fun i x y combines => ⟨fun r c d => combines.merged, ?_⟩,
    fun i t => Merging.round_of_not_combines, fun i => ?_, fun x y i j => Merging.writes_unique⟩
  · obtain ⟨last, n, reaches, done, found, given⟩ := merging_last sound memo a b
    obtain ⟨k, rfl⟩ := reaches.exists_stateAfter
    exact ⟨k, n, done, found, given⟩
  · obtain ⟨rest, front⟩ := combines.front
    obtain ⟨n, h, result, combined⟩ :=
      (merging_sound sound memo a b (reaches i)).combine front combines.ready
    have joined := combined.joined (Trust.memo_all memo)
    exact ⟨n, h, rest, result, ⟨front, combines.round front result⟩, joined,
      ordered_of_inRange joined.inRange n⟩
  · exact (reaches i).invariant (fun _ _ => Merging.single_next)
      (startMemo_single (reached_single ops) memo)

/-- A run that makes two calls, and a call to one state above each of them. -/
def callsAbove : List ContextOp :=
  twoCalls ++ [.single (some 1) ⟨13, by decide⟩, .single (some 2) ⟨13, by decide⟩]

/-- A merge of the upper calls combines their callers in its second round, and the upper calls in
its third, when there is a result for the callers. -/
theorem merge_combines_finished_callsAbove :
    let after := fun i =>
      Loop.stateAfter mergeRound i ((reached callsAbove).merging none (some 3) (some 4))
    (after 1).Combines 1 2 ∧ (after 2).Combines 3 4 ∧ ∃ m, (after 2).memo.find? 1 2 = some m := by
  intro after
  let g := (reached callsAbove).graph
  have lower : g.entries 1 = [.call 1 root] ∧ g.entries 2 = [.call 2 root] := ⟨rfl, rfl⟩
  have upper : g.entries 3 = [.call 13 1] ∧ g.entries 4 = [.call 13 2] := ⟨rfl, rfl⟩
  have apart : g.same 1 2 = false := Loop.run_eq_of_runFor (n := 5) rfl _
  have apart' : g.same 3 4 = false := Loop.run_eq_of_runFor (n := 5) rfl _
  have planned : mergeRound (after 0) = .next ⟨g, {}, [(1, 2), (3, 4)]⟩ := by
    change mergeRound ⟨g, {}, [(3, 4)]⟩ = _
    simp [mergeRound, apart', upper, sharedReturns, StackEntry.before, MergeMemo.find?]
  have second : after 1 = ⟨g, {}, [(1, 2), (3, 4)]⟩ := Loop.stateAfter_next planned
  have callers : (after 1).Combines 1 2 := by
    rw [second]
    exact
      { front := ⟨_, rfl⟩
        fresh := by simp [MergeMemo.find?]
        apart := apart
        ready := by simp [Merging.missing, lower, sharedReturns, StackEntry.before] }
  obtain ⟨-, finished, -⟩ := merge_combines_finished callsAbove none (some 3) (some 4)
  obtain ⟨-, n, h, rest, -, ⟨front, round⟩, joined, -⟩ := finished 1 1 2 callers
  have third : after 2 = ⟨h, (after 1).memo.record 1 2 n, rest⟩ := Loop.stateAfter_next round
  change (after 1).work = _ at front
  change (after 1).graph.Joined 1 2 n h at joined
  rw [second] at front third joined
  cases front
  have kept : h.entries 3 = [.call 13 1] ∧ h.entries 4 = [.call 13 2] :=
    ⟨joined.grows.entries 3 (by decide), joined.grows.entries 4 (by decide)⟩
  have known : ((({} : MergeMemo).record 1 2 n).find? 1 2).isSome = true :=
    MergeMemo.find?_record_self
  have nodes : (after 2).Combines 3 4 := by
    rw [third]
    refine
      { front := ⟨_, rfl⟩
        fresh := by simp [MergeMemo.find?_eq_none_iff, MergeMemo.mem_record]
        apart := ?_
        ready := ?_ }
    · rw [Bool.eq_false_iff, ne_eq, same_iff joined.inRange,
        joined.grows.sameStacks (by decide) (by decide),
        ← same_iff (reached_sound callsAbove).inRange]
      exact Bool.eq_false_iff.mp apart'
    · simpa [Merging.missing, kept, sharedReturns, StackEntry.before,
        Option.isSome_iff_ne_none] using known
  refine ⟨callers, nodes, (finished 2 3 4 nodes).1 13 1 2 ?_ ?_ (by decide)⟩
  · change _ ∈ (after 2).graph.entries 3
    rw [third, kept.1]
    exact List.mem_cons_self
  · change _ ∈ (after 2).graph.entries 4
    rw [third, kept.2]
    exact List.mem_cons_self

end ContextStore

end GrammarNet
