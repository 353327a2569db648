import GrammarNet.StackGraph.Same
import Std.Data.TreeMap

/-!
Merging stack nodes: the union of their stacks.

A merged node has the entries of both nodes; where both return to the same state, the callers below
are merged first. Results are kept in a memo by the pair they belong to, in either order, so shared
callers are merged once. A merge that adds nothing gives back one of the two nodes.
-/

namespace GrammarNet

/-- The results of merges by the pairs of nodes they belong to. -/
structure MergeMemo where
  results : Std.TreeMap (List Nat) Nat := ∅

namespace MergeMemo

/-- The result for a pair of nodes, in either order. -/
def find? (memo : MergeMemo) (a b : Nat) : Option Nat :=
  match memo.results[[a, b]]? with
  | some n => some n
  | none => memo.results[[b, a]]?

/-- Keeps the result for a pair, unless there is one already. -/
def record (memo : MergeMemo) (a b n : Nat) : MergeMemo :=
  ⟨memo.results.insertIfNew [a, b] n⟩

theorem find?_isSome_iff {memo : MergeMemo} {a b : Nat} :
    (memo.find? a b).isSome = true ↔ [a, b] ∈ memo.results ∨ [b, a] ∈ memo.results := by
  unfold find?
  split
  · next n h =>
      have : [a, b] ∈ memo.results := by
        rw [Std.TreeMap.mem_iff_isSome_getElem?, h]; rfl
      simp [this]
  · next h =>
      have : ¬ [a, b] ∈ memo.results := by
        rw [Std.TreeMap.mem_iff_isSome_getElem?, h]; simp
      rw [← Std.TreeMap.mem_iff_isSome_getElem?]
      simp [this]

theorem find?_record_self {memo : MergeMemo} {a b n : Nat} :
    ((memo.record a b n).find? a b).isSome = true := by
  rw [find?_isSome_iff]
  exact .inl (by simp [record])

theorem find?_record_of_isSome {memo : MergeMemo} {a b c d n : Nat}
    (h : (memo.find? c d).isSome = true) : ((memo.record a b n).find? c d).isSome = true := by
  rw [find?_isSome_iff] at h ⊢
  simp only [record, Std.TreeMap.mem_insertIfNew]
  exact h.imp .inr .inr

end MergeMemo

namespace StackGraph

/-- The entries of two lists in ascending order. Entries for the same return state become one,
below which stands the result for their callers. -/
def weave (merged? : Nat → Nat → Option Nat) :
    List StackEntry → List StackEntry → Except StackError (List StackEntry)
  | [], ys => .ok ys
  | x :: xs, [] => .ok (x :: xs)
  | x :: xs, y :: ys =>
      if x.before y then (x :: ·) <$> weave merged? xs (y :: ys)
      else if y.before x then (y :: ·) <$> weave merged? (x :: xs) ys
      else
        match x, y with
        | .call r c, .call _ d =>
            if c = d then (.call r c :: ·) <$> weave merged? xs ys
            else
              match merged? c d with
              | some m => (.call r m :: ·) <$> weave merged? xs ys
              | none => .error .unmerged
        | _, _ => (.ended :: ·) <$> weave merged? xs ys
termination_by xs ys => xs.length + ys.length

/-- Puts for each caller the first one before it that is the same, so that equal callers are one
node. `earlier` holds the callers before the list, without repetition. -/
def shareCallers (same : Nat → Nat → Bool) (earlier : List Nat) :
    List StackEntry → List StackEntry
  | [] => []
  | .ended :: rest => .ended :: shareCallers same earlier rest
  | .call r c :: rest =>
      match earlier.find? (same · c) with
      | some d => .call r d :: shareCallers same earlier rest
      | none => .call r c :: shareCallers same (earlier ++ [c]) rest

/-- The pairs of different callers below equal return states. -/
def sharedReturns : List StackEntry → List StackEntry → List (Nat × Nat)
  | [], _ => []
  | _ :: _, [] => []
  | x :: xs, y :: ys =>
      if x.before y then sharedReturns xs (y :: ys)
      else if y.before x then sharedReturns (x :: xs) ys
      else
        match x, y with
        | .call _ c, .call _ d =>
            if c = d then sharedReturns xs ys else (c, d) :: sharedReturns xs ys
        | _, _ => sharedReturns xs ys
termination_by xs ys => xs.length + ys.length

/-- Of two calls neither of which comes before the other, both return to the same state. -/
theorem return_eq_of_not_before {r s : Int} {c d : Nat}
    (notLess : ¬ (StackEntry.call r c).before (.call s d) = true)
    (notLess' : ¬ (StackEntry.call s d).before (.call r c) = true) : r = s := by
  simp only [StackEntry.before, decide_eq_true_eq] at notLess notLess'
  omega

theorem mem_sharedReturns {xs ys : List StackEntry} {c d : Nat} (h : (c, d) ∈ sharedReturns xs ys) :
    ∃ r, .call r c ∈ xs ∧ .call r d ∈ ys := by
  fun_induction sharedReturns xs ys with
  | case1 => simp at h
  | case2 => simp at h
  | case3 x xs y ys _ ih =>
      obtain ⟨r, hc, hd⟩ := ih h
      exact ⟨r, List.mem_cons_of_mem _ hc, hd⟩
  | case4 x xs y ys _ _ ih =>
      obtain ⟨r, hc, hd⟩ := ih h
      exact ⟨r, hc, List.mem_cons_of_mem _ hd⟩
  | case5 xs ys r c s _ _ ih =>
      obtain ⟨r, hc, hd⟩ := ih h
      exact ⟨r, List.mem_cons_of_mem _ hc, List.mem_cons_of_mem _ hd⟩
  | case6 xs ys r c s d' _ notLess notLess' ih =>
      rcases List.mem_cons.1 h with h | h
      · cases h
        obtain rfl := return_eq_of_not_before notLess notLess'
        exact ⟨r, List.mem_cons_self, List.mem_cons_self⟩
      · obtain ⟨r, hc, hd⟩ := ih h
        exact ⟨r, List.mem_cons_of_mem _ hc, List.mem_cons_of_mem _ hd⟩
  | case7 x xs y ys _ _ _ ih =>
      obtain ⟨r, hc, hd⟩ := ih h
      exact ⟨r, List.mem_cons_of_mem _ hc, List.mem_cons_of_mem _ hd⟩

/-- The node with the entries of both nodes, whose pairs of callers below equal return states have
results already: one of the two nodes when it has just these entries, or else a new one. -/
def combine (g : StackGraph) (merged? : Nat → Nat → Option Nat) (a b : Nat) :
    Except StackError (Nat × StackGraph) :=
  match weave merged? (g.entries a) (g.entries b) with
  | .error e => .error e
  | .ok entries =>
      let entries := shareCallers g.same [] entries
      if entries = g.entries a then .ok (a, g)
      else if entries = g.entries b then .ok (b, g)
      else g.ofEntries entries

/-- A merge under way: the pairs still to be merged, the results so far and the graph they are
in. -/
structure Merging where
  graph : StackGraph
  memo : MergeMemo
  work : List (Nat × Nat)

/-- Merges the pair in front when the callers it shares have results, or plans to merge those
first; the last of them comes first. -/
def mergeRound (s : Merging) : Round Merging (Except StackError (StackGraph × MergeMemo)) :=
  match s.work with
  | [] => .done (.ok (s.graph, s.memo))
  | (x, y) :: rest =>
      if (s.memo.find? x y).isSome then .next { s with work := rest }
      else if s.graph.same x y then
        .next { s with memo := s.memo.record x y x, work := rest }
      else
        match (sharedReturns (s.graph.entries x) (s.graph.entries y)).filter
            fun p => (s.memo.find? p.1 p.2).isNone with
        | [] =>
            match s.graph.combine s.memo.find? x y with
            | .error e => .done (.error e)
            | .ok (n, graph) => .next { graph, memo := s.memo.record x y n, work := rest }
        | p :: more => .next { s with work := (p :: more).reverse ++ (x, y) :: rest }

/-- How far the front of the work list is from a pair without planned callers. -/
def frontSize (memo : MergeMemo) (bound : Nat) (work : List (Nat × Nat)) : Nat :=
  match work with
  | [] => 0
  | (x, y) :: rest => if (memo.find? x y).isSome then bound + 2 + rest.length else x

theorem frontSize_lt (memo : MergeMemo) {bound : Nat} {work : List (Nat × Nat)}
    (h : ∀ p ∈ work, p.1 ≤ bound) : frontSize memo bound work < bound + 2 + work.length := by
  cases work with
  | nil => simp only [frontSize]; omega
  | cons p rest =>
      have := h p List.mem_cons_self
      simp only [frontSize, List.length_cons]
      split <;> omega

theorem frontSize_rest {memo : MergeMemo} {bound x y : Nat} {rest : List (Nat × Nat)}
    (known : (memo.find? x y).isSome = true) (old : ∀ p ∈ rest, p.1 ≤ bound) :
    frontSize memo bound rest < frontSize memo bound ((x, y) :: rest) := by
  simp only [frontSize, known, if_true]
  exact frontSize_lt memo old

/-- Planned pairs that have no result yet come nearer. -/
theorem frontSize_plan {memo : MergeMemo} {bound x y : Nat} {p : Nat × Nat}
    {more rest : List (Nat × Nat)} (fresh : ¬ (memo.find? x y).isSome = true)
    (older : ∀ q ∈ p :: more, q.1 < x ∧ q.2 < y ∧ (memo.find? q.1 q.2).isSome = false) :
    frontSize memo bound ((p :: more).reverse ++ (x, y) :: rest) <
      frontSize memo bound ((x, y) :: rest) := by
  obtain ⟨q, l, front, mem⟩ := Loop.exists_front p more ((x, y) :: rest)
  obtain ⟨less, -, unknown⟩ := older q mem
  simpa only [front, frontSize, unknown, if_neg fresh, Bool.false_eq_true, if_false] using less

/-- A merge ends: each pair gets a result once, and the pairs it plans in between are older. -/
theorem merge_ends (g : StackGraph) (memo : MergeMemo) (a b : Nat) :
    Loop.Ends mergeRound { graph := g, memo, work := [(a, b)] } := by
  refine Loop.Ends.of_measure (fun s => ∀ p ∈ s.work, p.1 ≤ a ∧ p.2 ≤ b)
    (fun s => ((pairsUpTo a b).countP fun p => !(s.memo.find? p.1 p.2).isSome,
      frontSize s.memo a s.work)) ?_ (by simp)
  rintro ⟨graph, memo, work⟩ t inv h
  unfold mergeRound at h
  split at h
  · cases h
  · next x y rest hw =>
      simp only at hw
      subst hw
      obtain ⟨hx, hy⟩ := inv (x, y) List.mem_cons_self
      simp only at hx hy
      have hrest := fun p hp => inv p (List.mem_cons_of_mem _ hp)
      split at h
      · next found =>
          cases h
          exact ⟨hrest, .inr ⟨rfl, frontSize_rest found fun p hp => (hrest p hp).1⟩⟩
      · next fresh =>
          have settled : ∀ n,
              ((pairsUpTo a b).countP fun p => !((memo.record x y n).find? p.1 p.2).isSome) <
                (pairsUpTo a b).countP fun p => !(memo.find? p.1 p.2).isSome := fun n =>
            Loop.countP_not_lt (a := (x, y)) (by simp [hx, hy]) fresh MergeMemo.find?_record_self
              fun p known => MergeMemo.find?_record_of_isSome known
          split at h
          · cases h
            exact ⟨hrest, .inl (settled x)⟩
          · split at h
            · split at h
              · cases h
              · next n graph' _ =>
                  cases h
                  exact ⟨hrest, .inl (settled n)⟩
            · next p more hp =>
                cases h
                have older : ∀ q ∈ p :: more, q.1 < x ∧ q.2 < y ∧
                    (memo.find? q.1 q.2).isSome = false := by
                  intro q hq
                  rw [← hp, List.mem_filter] at hq
                  obtain ⟨r, hc, hd⟩ := mem_sharedReturns hq.1
                  exact ⟨caller_lt hc rfl, caller_lt hd rfl, by simpa using hq.2⟩
                refine ⟨fun q hq => ?_, .inr ⟨rfl, frontSize_plan fresh older⟩⟩
                rcases List.mem_append.1 hq with hq | hq
                · have less := older q (List.mem_reverse.1 hq)
                  omega
                · exact inv q hq

/-- A merge that is over: the merged node, and the graph and memo after it. -/
structure Merged where
  node : Nat
  graph : StackGraph
  memo : MergeMemo

/-- The union of the stacks of two nodes. When they have the same stacks it is the first node, and
when the memo has a result for them it is that result. -/
def merge (g : StackGraph) (memo : MergeMemo) (a b : Option Nat) : Except StackError Merged :=
  let a := g.resolveRef a
  let b := g.resolveRef b
  if g.same a b then .ok ⟨a, g, memo⟩
  else
    match memo.find? a b with
    | some n => .ok ⟨n, g, memo⟩
    | none =>
        match Loop.run mergeRound { graph := g, memo, work := [(a, b)] } (merge_ends g memo a b) with
        | .error e => .error e
        | .ok (g, memo) =>
            match memo.find? a b with
            | some n => .ok ⟨n, g, memo⟩
            | none => .error .unmerged

end StackGraph

end GrammarNet
