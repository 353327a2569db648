import GrammarNet.Proofs.ContextLaws
import GrammarNet.Proofs.ReplacedNodes

/-!
What merging and canonical nodes mean when memos and maps are carried from one operation to the next.

A merge looks into its memo first, and the search for a canonical node into its map. So what they
give is right as far as the memo or the map is: when none of the nodes that it finds something for
was replaced, what was written for them still holds. Otherwise the answer for a node may be the
answer for the one whose place it took, and a merge has the stacks of other nodes
(`merge_misses_replacement`), or the canonical node is that of another tree
(`canonical_mistakes_replacement`). Nothing else depends on it: both end without an error, and all
nodes stay ordered.

* `ContextStore.merge_of_known`, `ContextStore.canonical_of_known`: what is known is given back.
* `TrackedStore.merge_eq_union`: a merge is the union of the stacks of two nodes, whatever trusted
  memo it uses, and all merges of two nodes give the same tree.
* `TrackedStore.canonical_eq_iff_sameTree`: canonical nodes are one node exactly when they stand for
  the same tree.
-/

namespace GrammarNet

open StackGraph StackEntry

/-! ### What is known already -/

namespace ContextStore

variable {s : ContextStore} {a b n m i table : Nat}

/-- A merge of nodes that are not the same gives back the result that its memo has. -/
theorem merge_of_known (ha : a ≤ s.graph.nodes.size) (hb : b ≤ s.graph.nodes.size)
    (apart : s.graph.same a b = false) (known : (s.memos i).find? a b = some n) :
    s.merge (some i) (some a) (some b) = .ok (n, s) := by
  have nameA : s.graph.resolveRef (some a) = a := resolve_eq ha
  have nameB : s.graph.resolveRef (some b) = b := resolve_eq hb
  have merged : s.graph.merge (s.memos i) (some a) (some b) = .ok ⟨n, s.graph, s.memos i⟩ := by
    unfold StackGraph.merge
    simp [nameA, nameB, apart, known]
  change (s.graph.merge (s.memos i) (some a) (some b)).map _ = _
  rw [merged]
  simp [Except.map, Function.update_eq_self]

/-- A search that ends within some number of rounds gives back what it has found by then. -/
theorem canonical_of_runFor (map : Option Nat) (rounds : Nat) (last : Canonizing)
    (le : n ≤ s.graph.nodes.size) (inner : n ≠ root)
    (ran : Loop.runFor canonicalRound rounds
      { graph := s.graph
        table := s.tables table
        found := map.elim {} (s.maps table)
        work := [n] } = some (.ok last))
    (known : last.found.find? n = some m) :
    s.canonical table map (some n) = .ok (m,
      { s with
        graph := last.graph
        tables := Function.update s.tables table last.table
        maps := map.elim s.maps fun i =>
          Function.update s.maps table (Function.update (s.maps table) i last.found) }) := by
  have named : s.graph.resolveRef (some n) = n := resolve_eq le
  have found : s.graph.canonicalIn (s.tables table) (map.elim {} (s.maps table)) (some n) =
      .ok ⟨m, last.graph, last.table, last.found⟩ := by
    simp only [canonicalIn, named]
    rw [if_neg inner, Loop.run_eq_of_runFor ran (canonical_ends _ _ _ _)]
    simp only [known]
  exact congrArg (Except.map _) found

/-- The canonical node that the map has for a node is given back. -/
theorem canonical_of_known (le : n ≤ s.graph.nodes.size) (inner : n ≠ root)
    (known : (s.maps table i).find? n = some m) :
    s.canonical table (some i) (some n) = .ok (m, s) := by
  let last : Canonizing :=
    { graph := s.graph, table := s.tables table, found := s.maps table i, work := [] }
  have ran : Loop.runFor canonicalRound 2 { last with work := [n] } = some (.ok last) := by
    simp [Loop.runFor, canonicalRound, last, known]
  rw [canonical_of_runFor (some i) 2 last le inner ran known]
  simp [last]

/-- A reference to no node names the root, which is its own canonical node. -/
theorem canonical_none (table : Nat) (map : Option Nat) :
    ∃ t, s.canonical table map none = .ok (root, t) := by
  have named : s.graph.resolveRef none = root := resolve_eq (Nat.zero_le _)
  have found : s.graph.canonicalIn (s.tables table) (map.elim {} (s.maps table)) none =
      .ok ⟨root, s.graph, s.tables table, map.elim {} (s.maps table)⟩ := by
    simp only [canonicalIn, named, if_true]
  exact ⟨_, congrArg (Except.map _) found⟩

/-! ### Merging -/

/-- A merge with a trusted memo ends with a node for the stacks of both nodes. -/
theorem SoundFor.merge_union {trust : Trust} {memo a b : Option Nat} {t : ContextStore}
    (sound : s.SoundFor trust) (trusted : trust.Memo memo) (result : s.merge memo a b = .ok (n, t))
    (stack : List Int) :
    t.StandsFor (some n) stack ↔ s.StandsFor a stack ∨ s.StandsFor b stack := by
  obtain ⟨n', t', result', -, combined⟩ := sound.combine memo a b
  rw [result] at result'
  cases result'
  exact standsFor_of_joined (combined.joined trusted) stack

end ContextStore

namespace TrackedStore

/-- A merge ends with a node, whatever memo it uses, and all nodes are ordered. When the memo is
trusted, the node stands for the union of the stacks of the two nodes. When they are merged again at
a later moment, in either order and with any memo that is trusted then, the result is the same
tree. -/
theorem merge_eq_union (before : List StoreStep) (memo : Option Nat) {a b : Option Nat}
    (ha : (reached before).store.graph.Names a) (hb : (reached before).store.graph.Names b) :
    ∃ n t, (reached before).store.merge memo a b = .ok (n, t) ∧ n ≤ t.graph.nodes.size ∧
      (∀ m, t.graph.Ordered m) ∧
      ((reached before).trust.Memo memo →
        (∀ stack, t.StandsFor (some n) stack ↔
          (reached before).store.StandsFor a stack ∨ (reached before).store.StandsFor b stack) ∧
        ∀ later memo' x y, (x = a ∧ y = b ∨ x = b ∧ y = a) →
          (reached (before ++ .op (.merge memo a b) :: later)).trust.Memo memo' →
          ∃ n' t', (reached (before ++ .op (.merge memo a b) :: later)).store.merge memo' x y =
              .ok (n', t') ∧ t'.graph.SameTree n n') := by
  obtain ⟨n, t, result, ⟨sound, -⟩, combined⟩ := (reached_sound before).combine memo a b
  refine ⟨n, t, result, combined.le, ordered_of_inRange sound.inRange, fun trusted => ?_⟩
  have union := (reached_sound before).merge_union trusted result
  refine ⟨union, fun later memo' x y order trusted' => ?_⟩
  let later' := before ++ .op (.merge memo a b) :: later
  obtain ⟨n', t', result', ⟨-, grows'⟩, combined'⟩ := (reached_sound later').combine memo' x y
  have union' := (reached_sound later').merge_union trusted' result'
  have sinceMerge : t.Grows t' :=
    (grows_reached (by rw [ContextStore.exec, result]; rfl)).trans grows'
  have sinceBefore := reached_grows before (.op (.merge memo a b) :: later)
  refine ⟨n', t', result', sameTree_iff_sameStacks.mpr fun stack => ?_⟩
  calc t'.graph.HasStack n stack
      ↔ t.StandsFor (some n) stack := by
        rw [sinceMerge.graph.hasStack combined.le, ContextStore.standsFor_some combined.le]
    _ ↔ (reached later').store.StandsFor a stack ∨ (reached later').store.StandsFor b stack := by
        rw [union, sinceBefore.standsFor ha, sinceBefore.standsFor hb]
    _ ↔ (reached later').store.StandsFor x stack ∨ (reached later').store.StandsFor y stack := by
        rcases order with ⟨rfl, rfl⟩ | ⟨rfl, rfl⟩
        · exact Iff.rfl
        · exact or_comm
    _ ↔ t'.graph.HasStack n' stack := by
        rw [← union', ContextStore.standsFor_some combined'.le]

/-- A run that makes three calls, the last of which takes the place of the first. -/
def otherReplaced : List StoreStep :=
  [.op (.single none ⟨19, by decide⟩), .op (.single none ⟨20, by decide⟩),
    .op (.single none ⟨21, by decide⟩), .replace 1 3]

theorem names_otherReplaced :
    (reached otherReplaced).store.graph.Names (some 2) ∧
      (reached otherReplaced).store.graph.Names (some 3) :=
  ⟨names_some.mpr (by decide), names_some.mpr (by decide)⟩

/-- Two calls are merged with a memo that knows no replaced node, and then the other way round. -/
theorem merge_eq_union_otherReplaced :
    ∃ n t, (reached otherReplaced).store.merge (some 0) (some 2) (some 3) = .ok (n, t) ∧
      (∀ stack, t.StandsFor (some n) stack ↔ stack = [20] ∨ stack = [21]) ∧
      ∃ n' t', (reached (otherReplaced ++ [.op (.merge (some 0) (some 2) (some 3))])).store.merge
          (some 0) (some 3) (some 2) = .ok (n', t') ∧ t'.graph.SameTree n n' := by
  have trusted : (reached otherReplaced).trust.memos 0 := by
    refine ⟨trivial, ?_⟩
    rintro ⟨key, mem, -⟩
    exact absurd mem Std.TreeMap.not_mem_emptyc
  obtain ⟨n, t, result, -, -, right⟩ :=
    merge_eq_union otherReplaced (some 0) names_otherReplaced.1 names_otherReplaced.2
  obtain ⟨union, again⟩ := right trusted
  have call : ∀ n r, (reached otherReplaced).store.graph.entries n = [.call r root] →
      ∀ stack, (reached otherReplaced).store.graph.HasStack n stack ↔ stack = [r] := by
    intro n r entries stack
    simp [hasStack_of_call entries, hasStack_root]
  refine ⟨n, t, result, fun stack => ?_, again [] (some 0) _ _ (.inr ⟨rfl, rfl⟩) ?_⟩
  · rw [union]
    exact or_congr (call 2 20 rfl stack) (call 3 21 rfl stack)
  · rw [reached_concat]
    exact trusted

/-- A run that makes a call, and a node of this call and another, and merges the two. -/
def callMerged : List StoreStep :=
  [.op (.single none ⟨19, by decide⟩),
    .op (.ofReturns [none, none] [⟨19, by decide⟩, ⟨20, by decide⟩]),
    .op (.merge (some 0) (some 1) (some 2)), .op (.single none ⟨21, by decide⟩)]

/-- The store after the run. -/
def mergedStore : ContextStore where
  graph := (ContextStore.reached [.single none ⟨19, by decide⟩,
    .ofReturns [none, none] [⟨19, by decide⟩, ⟨20, by decide⟩],
    .single none ⟨21, by decide⟩]).graph
  memos := Function.update (fun _ => {}) 0 (({} : MergeMemo).record 1 2 2)

theorem reached_callMerged : reached callMerged = ⟨mergedStore, .all⟩ := by
  let s := (ContextStore.reached [.single none ⟨19, by decide⟩]).exec
    (.ofReturns [none, none] [⟨19, by decide⟩, ⟨20, by decide⟩])
  let t : ContextStore :=
    { s with memos := Function.update s.memos 0 (({} : MergeMemo).record 1 2 2) }
  have single : s.graph.entries 1 = [.call 19 root] := rfl
  have both : s.graph.entries 2 = [.call 19 root, .call 20 root] := rfl
  have apart : s.graph.same 1 2 = false := Loop.run_eq_of_runFor (n := 5) rfl _
  have ready : sharedReturns (s.graph.entries 1) (s.graph.entries 2) = [] := by
    rw [single, both]
    simp [sharedReturns, StackEntry.before]
  have combined : s.graph.combine ({} : MergeMemo).find? 1 2 = .ok (2, s.graph) := by
    have same : s.graph.same root root = true := Loop.run_eq_of_runFor (n := 5) rfl _
    simp [combine, single, both, weave, StackEntry.before, shareCallers, same]
  have merged := merge_of_ready apart ready combined (by decide) (by decide)
  have mergeStep : s.exec (.merge (some 0) (some 1) (some 2)) = t := by
    rw [ContextStore.exec]
    exact congrArg s.after (congrArg (Except.map _) merged)
  rw [reached, callMerged, run_op rfl, run_op rfl, run_op mergeStep, run_op rfl]
  rfl

/-- The call is given up after the merge, and another takes its place. -/
def callReplaced : List StoreStep :=
  callMerged ++ [.replace 1 3]

theorem loose_mergedStore : mergedStore.Loose 1 where
  inner := by decide
  callers m r mem := by cases caller_eq_root (by decide) mem
  memos i key here := by
    by_cases first : i = 0
    · subst first
      change (({} : MergeMemo).record 1 2 2).results[key]? = some 1 at here
      rw [MergeMemo.record, Std.TreeMap.getElem?_insertIfNew] at here
      split at here
      · cases here
      · simp at here
    · simp [mergedStore, Function.update_of_ne first] at here
  tables i key := by simp [mergedStore]
  maps i j m := by simp [mergedStore, Canonicals.find?]

/-- The memo finds the merge of the call that was there before, and so the merge has no stack of the
call that is merged. -/
theorem merge_misses_replacement :
    Along Allows {} callReplaced ∧
      ∃ t, (reached callReplaced).store.merge (some 0) (some 3) (some 2) = .ok (2, t) ∧
        (reached callReplaced).store.StandsFor (some 3) [21] ∧ ¬ t.StandsFor (some 2) [21] := by
  have after : (reached callReplaced).store = (step ⟨mergedStore, .all⟩ (.replace 1 3)).store := by
    rw [callReplaced, reached_concat, reached_callMerged]
  have fresh : ¬ (mergedStore.memos 0).Knows 3 := by
    rintro ⟨key, mem, inside⟩
    change key ∈ (({} : MergeMemo).record 1 2 2).results at mem
    obtain rfl : [1, 2] = key := by simpa [MergeMemo.record] using mem
    exact absurd inside (by decide)
  have moved := MergeMemo.find?_replace (a := 1) (b := 2) 1 fresh (by decide) (by decide)
  have known : ((mergedStore.memos 0).replace 1 3).find? 3 2 = some 2 := moved
  have allowed : Allows (reached callMerged) (.replace 1 3) := by
    rw [reached_callMerged]
    exact ⟨loose_mergedStore, by decide, rfl⟩
  have single : mergedStore.graph.entries 3 = [.call 21 root] := rfl
  have both : mergedStore.graph.entries 2 = [.call 19 root, .call 20 root] := rfl
  rw [after]
  refine ⟨along_concat.mpr ⟨⟨trivial, trivial, trivial, trivial, trivial⟩, allowed⟩, _,
    ContextStore.merge_of_known (by decide) (by decide) (Loop.run_eq_of_runFor (n := 5) rfl _)
      known, ?_, ?_⟩
  · change mergedStore.graph.HasStack 3 [21]
    simp [hasStack_of_call single, hasStack_root]
  · change ¬ mergedStore.graph.HasStack 2 [21]
    simp [hasStack_cons, both]

/-! ### Canonical nodes -/

/-- The canonical nodes of two nodes, at any two moments of a run and with any maps. With a trusted
map, a canonical node unfolds to the tree of the node it stands for, and stands for itself; and when
both maps are trusted, the canonical nodes are one node exactly when the two nodes unfold to the same
tree. -/
theorem canonical_eq_iff_sameTree (before between : List StoreStep) (table : Nat)
    (map map' : Option Nat) {x y : Option Nat} (names₁ : (reached before).store.graph.Names x)
    (names₂ : (reached (before ++ .op (.canonical table map x) :: between)).store.graph.Names y) :
    let s := reached before
    let u := reached (before ++ .op (.canonical table map x) :: between)
    ∃ n₁ t₁ n₂ t₂, s.store.canonical table map x = .ok (n₁, t₁) ∧
      u.store.canonical table map' y = .ok (n₂, t₂) ∧ (x = none → n₁ = root) ∧
      (s.trust.Map table map → t₁.graph.SameTree n₁ (t₁.graph.resolveRef x)) ∧
      (u.trust.Map table map' → y = some n₁ → n₂ = n₁) ∧
      (s.trust.Map table map → u.trust.Map table map' →
        (n₁ = n₂ ↔ t₂.graph.SameTree (t₂.graph.resolveRef x) (t₂.graph.resolveRef y))) := by
  intro s u
  obtain ⟨n₁, t₁, result₁, ⟨sound₁, grows₁⟩, keeps₁, same₁⟩ :=
    (reached_sound before).intern table map x
  obtain ⟨n₂, t₂, result₂, ⟨sound₂, grows₂⟩, keeps₂, same₂⟩ :=
    (reached_sound (before ++ .op (.canonical table map x) :: between)).intern table map' y
  have le := keeps₁.le (sound₁.tables table)
  have grows : t₁.Grows t₂ :=
    (grows_reached (by rw [ContextStore.exec, result₁]; rfl)).trans grows₂
  have kept := keeps₁.grow (sound₁.tables table) grows.graph (grows.tables table)
  rw [← names₁.resolveRef_eq grows₁.graph] at same₁
  rw [← names₂.resolveRef_eq grows₂.graph] at same₂
  refine ⟨n₁, t₁, n₂, t₂, result₁, result₂, ?_, fun trusted => ?_, fun trusted' => ?_,
    fun trusted trusted' => ?_⟩
  · rintro rfl
    obtain ⟨t, result⟩ := ContextStore.canonical_none (s := s.store) table map
    rw [result] at result₁
    cases result₁
    rfl
  · exact sameTree_iff_sameStacks.mpr (same₁ trusted).symm
  · rintro rfl
    have named : t₂.graph.resolveRef (some n₁) = n₁ := resolve_eq (kept.le (sound₂.tables table))
    exact keeps₂.unique (sound₂.tables table) kept (named ▸ (same₂ trusted').symm)
  · have later : t₂.graph.SameStacks (t₂.graph.resolveRef x) n₁ := by
      have names : t₁.graph.Names x := names₁.grow grows₁.graph
      rw [names.resolveRef_eq grows.graph]
      exact (grows.graph.sameStacks (resolveRef_le _ x) le).mpr (same₁ trusted)
    rw [kept.eq_iff (sound₂.tables table) keeps₂, sameTree_iff_sameStacks]
    exact ⟨fun same => (later.trans same).trans (same₂ trusted').symm, fun same =>
      (later.symm.trans same).trans (same₂ trusted')⟩

/-- The canonical node of a call is found again, with a map that knows no replaced node. -/
theorem canonical_eq_iff_sameTree_otherReplaced :
    ∃ n t₁ t₂, (reached otherReplaced).store.canonical 0 (some 0) (some 2) = .ok (n, t₁) ∧
      t₁.graph.SameTree n (t₁.graph.resolveRef (some 2)) ∧
      (reached (otherReplaced ++ [.op (.canonical 0 (some 0) (some 2))])).store.canonical 0 (some 0)
        (some 2) = .ok (n, t₂) := by
  have trusted : (reached otherReplaced).trust.maps 0 0 := ⟨trivial, rfl⟩
  have later := reached_concat otherReplaced (.op (.canonical 0 (some 0) (some 2)))
  have trusted' : (reached (otherReplaced ++
      [.op (.canonical 0 (some 0) (some 2))])).trust.maps 0 0 := by
    rw [later]
    exact trusted
  obtain ⟨n₁, t₁, n₂, t₂, result₁, result₂, -, same, -, iff⟩ :=
    canonical_eq_iff_sameTree otherReplaced [] 0 (some 0) (some 0) names_otherReplaced.1
      (names_otherReplaced.1.grow (reached_grows otherReplaced _).graph)
  obtain rfl : n₁ = n₂ :=
    (iff trusted trusted').mpr (sameTree_iff_sameStacks.mpr (.refl _ _))
  exact ⟨n₁, t₁, t₂, result₁, same trusted, result₂⟩

/-- A run that makes a call and a copy of it, and finds the canonical node of each. -/
def copyFound : List StoreStep :=
  [.op (.single none ⟨17, by decide⟩), .op (.canonical 0 none (some 1)),
    .op (.single none ⟨17, by decide⟩), .op (.canonical 0 (some 0) (some 2)),
    .op (.single none ⟨18, by decide⟩)]

/-- A table that holds the call. -/
def callTable : CanonicalTable where
  nodes := (∅ : Std.TreeMap (List Int) Nat).insert (CanonicalTable.key [.call 17 root]) 1

/-- The map that the copy was looked for with. -/
def copyMap : Canonicals :=
  ((({} : Canonicals).record root root).record 2 1).record 1 1

/-- The store after the run. -/
def copyStore : ContextStore where
  graph := (ContextStore.reached [.single none ⟨17, by decide⟩, .single none ⟨17, by decide⟩,
    .single none ⟨18, by decide⟩]).graph
  tables := Function.update (Function.update (fun _ => {}) 0 callTable) 0 callTable
  maps := Function.update (fun _ _ => {}) 0 (Function.update (fun _ => {}) 0 copyMap)

theorem reached_copyFound : reached copyFound = ⟨copyStore, .all⟩ := by
  let s := ContextStore.reached [.single none ⟨17, by decide⟩]
  let t : ContextStore := { s with tables := Function.update s.tables 0 callTable }
  let u := t.exec (.single none ⟨17, by decide⟩)
  let v : ContextStore :=
    { u with
      tables := Function.update u.tables 0 callTable
      maps := Function.update u.maps 0 (Function.update (u.maps 0) 0 copyMap) }
  have first : s.canonical 0 none (some 1) = .ok (1, t) :=
    ContextStore.canonical_of_runFor none 5
      ⟨s.graph, callTable, ((({} : Canonicals).record root root).record 1 1).record 1 1, []⟩
      (by decide) (by decide) rfl rfl
  have second : u.canonical 0 (some 0) (some 2) = .ok (1, v) :=
    ContextStore.canonical_of_runFor (some 0) 5 ⟨u.graph, callTable, copyMap, []⟩ (by decide)
      (by decide) rfl rfl
  have firstStep : s.exec (.canonical 0 none (some 1)) = t := by
    rw [ContextStore.exec, first]
    rfl
  have secondStep : u.exec (.canonical 0 (some 0) (some 2)) = v := by
    rw [ContextStore.exec, second]
    rfl
  rw [reached, copyFound, run_op rfl, run_op firstStep, run_op rfl, run_op secondStep, run_op rfl]
  rfl

theorem loose_copyStore : copyStore.Loose 2 := by
  have sound : copyStore.SoundFor .all := by
    have sound := reached_sound copyFound
    rwa [reached_copyFound] at sound
  have tables : ∀ i (key : List Int), (copyStore.tables i).nodes[key]? ≠ some 2 := by
    intro i key here
    by_cases first : i = 0
    · subst first
      change callTable.nodes[key]? = some 2 at here
      rw [callTable, Std.TreeMap.getElem?_insert] at here
      split at here
      · cases here
      · simp at here
    · simp [copyStore, Function.update_of_ne first] at here
  exact
    { inner := by decide
      callers := fun m r mem => by cases caller_eq_root (by decide) mem
      memos := fun i key => by simp [copyStore]
      tables
      maps := sound.maps_ne (by decide) tables }

/-- The copy is given up, and another call takes its place. -/
def copyReplaced : List StoreStep :=
  copyFound ++ [.replace 2 3]

theorem allows_copyReplaced : Along Allows {} copyReplaced := by
  have allowed : Allows (reached copyFound) (.replace 2 3) := by
    rw [reached_copyFound]
    exact ⟨loose_copyStore, by decide, rfl⟩
  exact along_concat.mpr ⟨⟨trivial, trivial, trivial, trivial, trivial, trivial⟩, allowed⟩

/-- The map finds the copy for the call in its place. -/
theorem known_copyReplaced :
    (reached copyReplaced).store.graph = copyStore.graph ∧
      (reached copyReplaced).store.tables = copyStore.tables ∧
      ((reached copyReplaced).store.maps 0 0).find? 3 = some 1 := by
  rw [copyReplaced, reached_concat, reached_copyFound]
  exact ⟨rfl, rfl, Canonicals.find?_replace (by decide) rfl⟩

theorem not_sameTree_copyStore : ¬ copyStore.graph.SameTree 1 3 := by
  intro same
  have copied : copyStore.graph.entries 1 = [.call 17 root] := rfl
  have other : copyStore.graph.entries 3 = [.call 18 root] := rfl
  have has := (same.sameStacks [17]).mp (by simp [hasStack_of_call copied, hasStack_root])
  simp [hasStack_of_call other] at has

/-- The canonical node that is given back for a call in the place of another stands for the other. -/
theorem canonical_mistakes_replacement :
    Along Allows {} copyReplaced ∧
      ∃ t, (reached copyReplaced).store.canonical 0 (some 0) (some 3) = .ok (1, t) ∧
        ¬ t.graph.SameTree 1 (t.graph.resolveRef (some 3)) := by
  obtain ⟨graph, -, known⟩ := known_copyReplaced
  refine ⟨allows_copyReplaced, _,
    ContextStore.canonical_of_known (graph ▸ by decide) (by decide) known, ?_⟩
  rw [graph]
  exact not_sameTree_copyStore

end TrackedStore

end GrammarNet
