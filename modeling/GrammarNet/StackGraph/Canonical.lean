import GrammarNet.StackGraph.Merge

/-!
Canonical stack nodes.

A `CanonicalTable` keeps one node for each content, that is, for each list of entries. Making a
node canonical replaces the callers below it by their canonical nodes first, so nodes with the same
stacks have one canonical node. A `Canonicals` map remembers the canonical nodes found so far, and
may be carried from one call to the next.
-/

namespace GrammarNet

namespace StackEntry

/-- A list of numbers that tells entries apart, whatever follows it. -/
def key : StackEntry → List Int
  | ended => [0]
  | call returnTo caller => [1, returnTo, caller]

end StackEntry

/-- One node for each list of entries. The root stands for itself and is not kept. -/
structure CanonicalTable where
  nodes : Std.TreeMap (List Int) Nat := ∅

namespace CanonicalTable

instance : Inhabited CanonicalTable := ⟨{}⟩

/-- A list of numbers that tells lists of entries apart. -/
def key (entries : List StackEntry) : List Int :=
  entries.flatMap StackEntry.key

/-- The number of nodes kept. -/
def size (table : CanonicalTable) : Nat :=
  table.nodes.size

/-- The node kept for the content of `n`. -/
def find? (table : CanonicalTable) (g : StackGraph) (n : Nat) : Option Nat :=
  table.nodes[key (g.entries n)]?

/-- The node kept for the content of a node; no reference names the root. -/
def get? (table : CanonicalTable) (g : StackGraph) (n : Option Nat) : Option Nat :=
  let n := g.resolveRef n
  if n = StackGraph.root then some n else table.find? g n

/-- The node kept for the content of a node, which is kept itself when there is none yet. -/
def add (table : CanonicalTable) (g : StackGraph) (n : Option Nat) : Nat × CanonicalTable :=
  let n := g.resolveRef n
  if n = StackGraph.root then (n, table)
  else
    match table.find? g n with
    | some m => (m, table)
    | none => (n, ⟨table.nodes.insert (key (g.entries n)) n⟩)

end CanonicalTable

/-- The canonical nodes found so far, by the nodes they stand for. -/
structure Canonicals where
  nodes : Std.TreeMap Nat Nat := ∅

namespace Canonicals

instance : Inhabited Canonicals := ⟨{}⟩

/-- The canonical node of a node, if it was found. -/
def find? (found : Canonicals) (n : Nat) : Option Nat :=
  found.nodes[n]?

/-- Remembers the canonical node of a node, unless there is one already. -/
def record (found : Canonicals) (n canonical : Nat) : Canonicals :=
  ⟨found.nodes.insertIfNew n canonical⟩

theorem find?_isSome_iff {found : Canonicals} {n : Nat} :
    (found.find? n).isSome = true ↔ n ∈ found.nodes := by
  rw [find?, Std.TreeMap.mem_iff_isSome_getElem?]

theorem find?_record_self {found : Canonicals} {n m : Nat} :
    ((found.record n m).find? n).isSome = true := by
  rw [find?_isSome_iff]
  simp [record]

theorem find?_record_of_isSome {found : Canonicals} {n m k : Nat}
    (h : (found.find? k).isSome = true) : ((found.record n m).find? k).isSome = true := by
  rw [find?_isSome_iff] at h ⊢
  simp only [record, Std.TreeMap.mem_insertIfNew]
  exact .inr h

end Canonicals

namespace StackGraph

/-- The callers below a list of entries. -/
def callers (entries : List StackEntry) : List Nat :=
  entries.filterMap (·.caller?)

/-- The entries with their callers replaced by the canonical ones. -/
def canonicalEntries (found : Canonicals) : List StackEntry → Except StackError (List StackEntry)
  | [] => .ok []
  | .ended :: rest => (.ended :: ·) <$> canonicalEntries found rest
  | .call r c :: rest =>
      match found.find? c with
      | some m => (.call r m :: ·) <$> canonicalEntries found rest
      | none => .error .unvisited

/-- The node with the entries of `n` above canonical callers: `n` itself when its callers are
canonical, or else a new node. -/
def rebuild (g : StackGraph) (found : Canonicals) (n : Nat) : Except StackError (Nat × StackGraph) :=
  match canonicalEntries found (g.entries n) with
  | .error e => .error e
  | .ok entries => if entries = g.entries n then .ok (n, g) else g.ofEntries entries

/-- Work on canonical nodes under way: the nodes still to be done, and what was found so far. -/
structure Canonizing where
  graph : StackGraph
  table : CanonicalTable
  found : Canonicals
  work : List Nat

/-- Finds the canonical node of the node in front when its callers have theirs, or plans to find
those first; the last of them comes first. -/
def canonicalRound (s : Canonizing) : Round Canonizing (Except StackError Canonizing) :=
  match s.work with
  | [] => .done (.ok s)
  | n :: rest =>
      if (s.found.find? n).isSome then .next { s with work := rest }
      else if n = root then .next { s with found := s.found.record n n, work := rest }
      else
        match (callers (s.graph.entries n)).filter fun c => (s.found.find? c).isNone with
        | [] =>
            match s.graph.rebuild s.found n with
            | .error e => .done (.error e)
            | .ok (candidate, graph) =>
                let (canonical, table) := s.table.add graph (some candidate)
                .next
                  { graph, table
                    found := (s.found.record n canonical).record canonical canonical
                    work := rest }
        | c :: more => .next { s with work := (c :: more).reverse ++ n :: rest }

/-- How far the front of the work list is from a node without planned callers. -/
def frontAge (found : Canonicals) (bound : Nat) (work : List Nat) : Nat :=
  match work with
  | [] => 0
  | n :: rest => if (found.find? n).isSome then bound + 2 + rest.length else n

theorem frontAge_lt (found : Canonicals) {bound : Nat} {work : List Nat}
    (h : ∀ n ∈ work, n ≤ bound) : frontAge found bound work < bound + 2 + work.length := by
  cases work with
  | nil => simp only [frontAge]; omega
  | cons n rest =>
      have := h n List.mem_cons_self
      simp only [frontAge, List.length_cons]
      split <;> omega

theorem frontAge_rest {found : Canonicals} {bound m : Nat} {rest : List Nat}
    (known : (found.find? m).isSome = true) (old : ∀ n ∈ rest, n ≤ bound) :
    frontAge found bound rest < frontAge found bound (m :: rest) := by
  simp only [frontAge, known, if_true]
  exact frontAge_lt found old

/-- Planned callers that have no canonical node yet come nearer. -/
theorem frontAge_plan {found : Canonicals} {bound m c : Nat} {more rest : List Nat}
    (fresh : ¬ (found.find? m).isSome = true)
    (older : ∀ q ∈ c :: more, q < m ∧ (found.find? q).isSome = false) :
    frontAge found bound ((c :: more).reverse ++ m :: rest) < frontAge found bound (m :: rest) := by
  obtain ⟨q, l, front, mem⟩ := Loop.exists_front c more (m :: rest)
  obtain ⟨less, unknown⟩ := older q mem
  simpa only [front, frontAge, unknown, if_neg fresh, Bool.false_eq_true, if_false] using less

/-- Finding a canonical node ends: each node is done once, and those planned in between are
older. -/
theorem canonical_ends (g : StackGraph) (table : CanonicalTable) (found : Canonicals) (n : Nat) :
    Loop.Ends canonicalRound { graph := g, table, found, work := [n] } := by
  refine Loop.Ends.of_measure (fun s => ∀ m ∈ s.work, m ≤ n)
    (fun s => ((List.range (n + 1)).countP fun m => !(s.found.find? m).isSome,
      frontAge s.found n s.work)) ?_ (by simp)
  rintro ⟨graph, table, found, work⟩ t inv h
  unfold canonicalRound at h
  split at h
  · cases h
  · next m rest hw =>
      simp only at hw
      subst hw
      have hm : m ∈ List.range (n + 1) :=
        List.mem_range.2 (Nat.lt_succ_of_le (inv m List.mem_cons_self))
      have hrest := fun k hk => inv k (List.mem_cons_of_mem _ hk)
      split at h
      · next done =>
          cases h
          exact ⟨hrest, .inr ⟨rfl, frontAge_rest done hrest⟩⟩
      · next fresh =>
          split at h
          · cases h
            exact ⟨hrest, .inl (Loop.countP_not_lt hm fresh Canonicals.find?_record_self
              fun k known => Canonicals.find?_record_of_isSome known)⟩
          · split at h
            · split at h
              · cases h
              · cases h
                exact ⟨hrest, .inl (Loop.countP_not_lt hm fresh
                  (Canonicals.find?_record_of_isSome Canonicals.find?_record_self) fun k known =>
                  Canonicals.find?_record_of_isSome (Canonicals.find?_record_of_isSome known))⟩
            · next c more hp =>
                cases h
                have older : ∀ q ∈ c :: more, q < m ∧ (found.find? q).isSome = false := by
                  intro q hq
                  rw [← hp, List.mem_filter] at hq
                  obtain ⟨e, he, hc⟩ := List.mem_filterMap.1 hq.1
                  exact ⟨caller_lt he hc, by simpa using hq.2⟩
                refine ⟨fun q hq => ?_, .inr ⟨rfl, frontAge_plan fresh older⟩⟩
                rcases List.mem_append.1 hq with hq | hq
                · exact Nat.le_trans (Nat.le_of_lt (older q (List.mem_reverse.1 hq)).1)
                    (inv m List.mem_cons_self)
                · exact inv q hq

/-- A canonical node that was found, and the graph, table and map after it. -/
structure Canonical where
  node : Nat
  graph : StackGraph
  table : CanonicalTable
  found : Canonicals

/-- The canonical node of a node, given what was found before. The root stands for itself and is
not looked for. -/
def canonicalIn (g : StackGraph) (table : CanonicalTable) (found : Canonicals) (n : Option Nat) :
    Except StackError Canonical :=
  let n := g.resolveRef n
  if n = root then .ok ⟨n, g, table, found⟩
  else
    match Loop.run canonicalRound { graph := g, table, found, work := [n] }
        (canonical_ends g table found n) with
    | .error e => .error e
    | .ok s =>
        match s.found.find? n with
        | some m => .ok ⟨m, s.graph, s.table, s.found⟩
        | none => .error .unvisited

/-- The canonical node of a node. -/
def canonical (g : StackGraph) (table : CanonicalTable) (n : Option Nat) :
    Except StackError Canonical :=
  g.canonicalIn table {} n

/-- The union of the stacks of a node and of the nodes of a list, with one memo for all merges. -/
def mergeFrom (g : StackGraph) (memo : MergeMemo) (merged : Option Nat) :
    List (Option Nat) → Except StackError (Option Nat × StackGraph)
  | [] => .ok (merged, g)
  | n :: rest =>
      match g.merge memo merged n with
      | .error e => .error e
      | .ok m => mergeFrom m.graph m.memo (some m.node) rest

/-- The canonical node for the union of the stacks of all nodes of a list; for the empty list, the
root. -/
def mergeAll (g : StackGraph) (table : CanonicalTable) :
    List (Option Nat) → Except StackError Canonical
  | [] => .ok ⟨root, g, table, {}⟩
  | n :: rest =>
      match mergeFrom g {} n rest with
      | .error e => .error e
      | .ok (merged, g) => g.canonical table merged

end StackGraph

end GrammarNet
