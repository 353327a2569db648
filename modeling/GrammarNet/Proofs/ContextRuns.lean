import GrammarNet.Lookahead.Expected
import GrammarNet.Proofs.Interning
import Mathlib.Logic.Function.Basic

/-!
Runs of operations on call stacks.

A `ContextStore` is what such a run works on: one graph, the memos of its merges, and tables of
canonical nodes, each with maps of what was found in it. An operation that fails leaves the store
as it was. Whatever a run does, all that the memos, tables and maps hold stays true
(`ContextStore.Sound`), and nodes are kept (`ContextStore.Grows`); `run_sound` is the induction over
the run.

In these runs a node is never given up, so a memo or a map that is carried from one operation to the
next finds for each node what was written for it. Where nodes may be given up and replaced, some of
them cannot be trusted any more; `ContextStore.SoundFor` says what is left then, and the runs are
those of `GrammarNet.Proofs.ReplacedNodes`.
-/

namespace GrammarNet

open StackGraph StackEntry

/-- A return state is at most the mark for the end, which is the largest number of its type. -/
structure ReturnState where
  val : Int
  le : val ≤ endMark

/-- All that operations on call stacks share. The graph keeps every node that was made, whether or
not anything refers to it. -/
structure ContextStore where
  graph : StackGraph := .empty
  /-- The results of merges, by the memo they were written to. Nodes are found in it by number. -/
  memos : Nat → MergeMemo := fun _ => {}
  /-- The tables of canonical nodes. -/
  tables : Nat → CanonicalTable := fun _ => {}
  /-- What was found in a table, by the map it was written to. Nodes are found in it by number. -/
  maps : Nat → Nat → Canonicals := fun _ _ => {}

/-- An operation on call stacks. None of them gives a node up: the nodes of all operations before are
still there, and a number that was given to a node is not given to another. -/
inductive ContextOp where
  | single (caller : Option Nat) (returnTo : ReturnState)
  | ofReturns (callers : List (Option Nat)) (returns : List ReturnState)
  | ofChain (net : Network) (chain : ParseChain)
      (fits : ∀ invoking follow, net.callFollow invoking = .ok follow → (follow : Int) ≤ endMark)
  | merge (memo : Option Nat) (a b : Option Nat)
  | mergeAll (table : Nat) (nodes : List (Option Nat))
  | canonical (table : Nat) (map : Option Nat) (n : Option Nat)

namespace ContextStore

/-- A node, with the store after its graph grew to have it. -/
def withGraph (s : ContextStore) (made : Nat × StackGraph) : Nat × ContextStore :=
  (made.1, { s with graph := made.2 })

/-- The union of the stacks of two nodes, with one of the memos or with a new one. -/
def merge (s : ContextStore) (memo : Option Nat) (a b : Option Nat) :
    Except StackError (Nat × ContextStore) :=
  (s.graph.merge (memo.elim {} s.memos) a b).map fun m =>
    (m.node,
      { s with
        graph := m.graph
        memos := memo.elim s.memos fun i => Function.update s.memos i m.memo })

/-- The node of a table for the union of the stacks of all nodes of a list. -/
def mergeAll (s : ContextStore) (table : Nat) (nodes : List (Option Nat)) :
    Except StackError (Nat × ContextStore) :=
  (s.graph.mergeAll (s.tables table) nodes).map fun c =>
    (c.node, { s with graph := c.graph, tables := Function.update s.tables table c.table })

/-- The node of a table for a node, with one of the maps of the table or with a new one. -/
def canonical (s : ContextStore) (table : Nat) (map : Option Nat) (n : Option Nat) :
    Except StackError (Nat × ContextStore) :=
  (s.graph.canonicalIn (s.tables table) (map.elim {} (s.maps table)) n).map fun c =>
    (c.node,
      { s with
        graph := c.graph
        tables := Function.update s.tables table c.table
        maps := map.elim s.maps fun i =>
          Function.update s.maps table (Function.update (s.maps table) i c.found) })

/-- What an operation leaves behind: the store as it was when the operation fails. -/
def after {ε : Type} (s : ContextStore) : Except ε (Nat × ContextStore) → ContextStore
  | .ok (_, t) => t
  | .error _ => s

/-- What holds of a store, and of all that an operation can give, holds after the operation. -/
theorem after_map {ε α : Type} {s : ContextStore} {P : ContextStore → Prop} (result : Except ε α)
    {f : α → Nat × ContextStore} (here : P s) (there : ∀ a, P (f a).2) :
    P (s.after (result.map f)) := by
  cases result with
  | error e => exact here
  | ok a => exact there a

/-- The store after an operation. -/
def exec (s : ContextStore) : ContextOp → ContextStore
  | .single caller returnTo => (s.withGraph (s.graph.single caller returnTo.val)).2
  | .ofReturns callers returns =>
      s.after ((s.graph.ofReturns callers (returns.map (·.val))).map s.withGraph)
  | .ofChain net chain _ => s.after ((s.graph.ofChain net chain).map s.withGraph)
  | .merge memo a b => s.after (s.merge memo a b)
  | .mergeAll table nodes => s.after (s.mergeAll table nodes)
  | .canonical table map n => s.after (s.canonical table map n)

/-- The store after a list of operations. -/
def run (s : ContextStore) (ops : List ContextOp) : ContextStore :=
  ops.foldl exec s

/-- The store that a list of operations reaches from the empty one. -/
def reached (ops : List ContextOp) : ContextStore :=
  run {} ops

end ContextStore

/-! ### Making nodes -/

namespace StackGraph

variable {g h : StackGraph} {n : Nat}

theorem push_grows {entries : List StackEntry} {callers_le asc ne_nil ne_root}
    (inRange : g.InRange) (below : BelowMark entries) :
    g.Grows (g.push entries callers_le asc ne_nil ne_root).2 ∧
      (g.push entries callers_le asc ne_nil ne_root).2.InRange := by
  have new := made_push inRange callers_le asc ne_nil ne_root below
  exact ⟨new.grows, new.inRange⟩

theorem single_grows {caller : Option Nat} {returnTo : Int} (inRange : g.InRange)
    (le : returnTo ≤ endMark) :
    g.Grows (g.single caller returnTo).2 ∧ (g.single caller returnTo).2.InRange := by
  unfold single
  split
  · exact ⟨.refl g, inRange⟩
  · next inner =>
      have below : BelowMark [.call returnTo (g.resolveRef caller)] := by
        intro r c mem
        cases List.mem_singleton.mp mem
        omega
      exact push_grows inRange below

theorem belowMark_map {entries : List StackEntry} (below : BelowMark entries) (f : Nat → Nat) :
    BelowMark (entries.map (·.withCaller f)) := by
  intro r c mem
  obtain ⟨e, mem', same⟩ := List.mem_map.mp mem
  cases e with
  | ended => cases same
  | call s d =>
      cases same
      exact below r d mem'

theorem ofEntries_grows {entries : List StackEntry} (inRange : g.InRange)
    (below : BelowMark entries) (result : g.ofEntries entries = .ok (n, h)) :
    g.Grows h ∧ h.InRange := by
  have below := belowMark_map below g.resolve
  unfold ofEntries at result
  simp only at result
  split at result
  · cases result
  · split at result
    · split at result
      · cases result
        exact ⟨.refl g, inRange⟩
      · obtain rfl : (g.push _ _ _ _ _).2 = h := congrArg Prod.snd (Except.ok.inj result)
        exact push_grows inRange below
    · cases result

/-- An entry for a return state is a call only below the mark. -/
theorem belowMark_ofReturns {callers : List (Option Nat)} {returns : List Int}
    (le : ∀ r ∈ returns, r ≤ endMark) :
    BelowMark (List.zipWith (fun c r => ofReturn r (c.getD root)) callers returns) := by
  intro r c mem
  rw [← List.map_uncurry_zip_eq_zipWith] at mem
  obtain ⟨⟨d, s⟩, mem, same⟩ := List.mem_map.mp mem
  have le := le s (List.of_mem_zip mem).2
  change ofReturn s (d.getD root) = .call r c at same
  unfold ofReturn at same
  split at same
  · cases same
  · cases same
    omega

theorem ofReturns_grows {callers : List (Option Nat)} {returns : List Int} (inRange : g.InRange)
    (le : ∀ r ∈ returns, r ≤ endMark) (result : g.ofReturns callers returns = .ok (n, h)) :
    g.Grows h ∧ h.InRange := by
  unfold ofReturns at result
  split at result
  · exact ofEntries_grows inRange (belowMark_ofReturns le) result
  · cases result

theorem enterCalls_grows {net : Network} {levels : List Int} {m : Nat} (inRange : g.InRange)
    (fits : ∀ invoking follow, net.callFollow invoking = .ok follow → (follow : Int) ≤ endMark)
    (result : g.enterCalls net m levels = .ok (n, h)) : g.Grows h ∧ h.InRange := by
  induction levels generalizing g m with
  | nil =>
      cases result
      exact ⟨.refl h, inRange⟩
  | cons invoking rest ih =>
      rw [enterCalls] at result
      split at result
      · cases result
      · next follow call =>
          obtain ⟨first, inRange⟩ := single_grows inRange (fits invoking follow call)
          obtain ⟨grows, inRange⟩ := ih inRange result
          exact ⟨first.trans grows, inRange⟩

end StackGraph

/-! ### What a run keeps -/

namespace ContextStore

variable {s t u : ContextStore}

/-- Which memos and maps are trusted: what they find for a node was written for it. -/
structure Trust where
  memos : Nat → Prop
  maps : Nat → Nat → Prop

namespace Trust

/-- All memos and maps are trusted. -/
def all : Trust where
  memos _ := True
  maps _ _ := True

/-- The memo of a merge is trusted. A new one is. -/
def Memo (trust : Trust) : Option Nat → Prop
  | none => True
  | some i => trust.memos i

/-- The map that a canonical node is looked for with is trusted. A new one is. -/
def Map (trust : Trust) (table : Nat) : Option Nat → Prop
  | none => True
  | some i => trust.maps table i

@[simp] theorem memo_some (trust : Trust) (i : Nat) : trust.Memo (some i) = trust.memos i :=
  rfl

@[simp] theorem map_some (trust : Trust) (table i : Nat) :
    trust.Map table (some i) = trust.maps table i :=
  rfl

theorem memo_all (memo : Option Nat) : all.Memo memo := by
  cases memo <;> exact trivial

theorem map_all (table : Nat) (map : Option Nat) : all.Map table map := by
  cases map <;> exact trivial

end Trust

variable {trust : Trust}

/-- All that the tables hold is true of the nodes, and so is what trusted memos and maps hold. -/
structure SoundFor (s : ContextStore) (trust : Trust) : Prop where
  inRange : s.graph.InRange
  memos : ∀ i, (s.memos i).Sound (trust.memos i) s.graph
  tables : ∀ i, (s.tables i).Sound s.graph
  maps : ∀ i j, (s.maps i j).Sound (trust.maps i j) (s.tables i) s.graph

/-- All that the memos, tables and maps hold is true of the nodes. -/
abbrev Sound (s : ContextStore) : Prop :=
  s.SoundFor .all

/-- Nodes are kept, and so is what the tables keep. -/
structure Grows (s t : ContextStore) : Prop where
  graph : s.graph.Grows t.graph
  tables : ∀ i, (s.tables i).Grows (t.tables i)

theorem Grows.refl (s : ContextStore) : s.Grows s :=
  ⟨.refl s.graph, fun i => .refl (s.tables i)⟩

theorem Grows.trans (first : s.Grows t) (second : t.Grows u) : s.Grows u :=
  ⟨first.graph.trans second.graph, fun i => (first.tables i).trans (second.tables i)⟩

theorem sound_start : Sound {} where
  inRange n := by
    rcases StackGraph.empty.entries_cases n with outer | ⟨k, inside, -⟩
    · intro r c mem
      change _ ∈ StackGraph.empty.entries n at mem
      rw [outer, StackNode.rootEntries, List.mem_singleton] at mem
      cases mem
    · exact absurd inside (Nat.not_lt_zero k)
  memos _ := MergeMemo.sound_empty _ _
  tables _ := CanonicalTable.sound_empty _
  maps _ _ := Canonicals.sound_empty _ _ _

theorem SoundFor.withGraph (sound : s.SoundFor trust) {g : StackGraph}
    (grows : s.graph.Grows g ∧ g.InRange) :
    SoundFor { s with graph := g } trust ∧ s.Grows { s with graph := g } where
  left :=
    { inRange := grows.2
      memos := fun i => (sound.memos i).grow grows.1
      tables := fun i => (sound.tables i).grow grows.1
      maps := fun i j => (sound.maps i j).grow (sound.tables i) grows.1 (.refl _) }
  right := ⟨grows.1, fun i => .refl (s.tables i)⟩

/-- Another table that keeps all that the table kept may take its place. -/
theorem SoundFor.withTable (sound : s.SoundFor trust) {g : StackGraph} {i : Nat}
    {table : CanonicalTable} (grows : s.graph.Grows g) (inRange : g.InRange)
    (tableGrows : (s.tables i).Grows table) (kept : table.Sound g) :
    SoundFor { s with graph := g, tables := Function.update s.tables i table } trust ∧
      s.Grows { s with graph := g, tables := Function.update s.tables i table } := by
  have all : ∀ j, (s.tables j).Grows (Function.update s.tables i table j) := by
    intro j
    by_cases same : j = i
    · subst same
      rw [Function.update_self]
      exact tableGrows
    · rw [Function.update_of_ne same]
      exact .refl _
  refine ⟨?_, grows, all⟩
  refine
    { inRange
      memos := fun j => (sound.memos j).grow grows
      tables := fun j => ?_
      maps := fun j k => (sound.maps j k).grow (sound.tables j) grows (all j) }
  by_cases same : j = i
  · subst same
    simpa using kept
  · simpa [Function.update_of_ne same] using (sound.tables j).grow grows

/-- A merge starts with a memo of the store or a new one. -/
theorem SoundFor.startMemo (sound : s.SoundFor trust) (memo : Option Nat) :
    (memo.elim {} s.memos : MergeMemo).Sound (trust.Memo memo) s.graph := by
  cases memo with
  | none => exact MergeMemo.sound_empty _ _
  | some i => exact sound.memos i

/-- A merge in a store ends, with the union if its memo is trusted. -/
theorem SoundFor.combine (sound : s.SoundFor trust) (memo : Option Nat) (a b : Option Nat) :
    ∃ n t, s.merge memo a b = .ok (n, t) ∧ (t.SoundFor trust ∧ s.Grows t) ∧
      s.graph.Combined (trust.Memo memo) (s.graph.resolveRef a) (s.graph.resolveRef b) n t.graph := by
  obtain ⟨m, result, kept, combined⟩ :=
    merge_spec (a := a) (b := b) sound.inRange (sound.startMemo memo)
  obtain ⟨sound', grows⟩ := sound.withGraph ⟨combined.grows, combined.inRange⟩
  refine ⟨_, _, (by rw [ContextStore.merge, result]; rfl), ⟨?_, ?_⟩, combined⟩
  · cases memo with
    | none => exact sound'
    | some i =>
        refine { sound' with memos := fun j => ?_ }
        by_cases same : j = i
        · subst same
          simpa using kept
        · simpa [Function.update_of_ne same] using sound'.memos j
  · exact ⟨grows.graph, grows.tables⟩

/-- A merge in a store ends with the union, whatever memo it uses. -/
theorem Sound.merge (sound : s.Sound) (memo : Option Nat) (a b : Option Nat) :
    ∃ n t, s.merge memo a b = .ok (n, t) ∧ (t.Sound ∧ s.Grows t) ∧
      s.graph.Joined (s.graph.resolveRef a) (s.graph.resolveRef b) n t.graph := by
  obtain ⟨n, t, result, kept, combined⟩ := sound.combine memo a b
  exact ⟨n, t, result, kept, combined.joined (Trust.memo_all memo)⟩

/-- Merging a list in a store ends with a kept node for the union. -/
theorem SoundFor.mergeAll (sound : s.SoundFor trust) (table : Nat) (nodes : List (Option Nat)) :
    ∃ n t, s.mergeAll table nodes = .ok (n, t) ∧ (t.SoundFor trust ∧ s.Grows t) ∧
      (t.tables table).Keeps t.graph n ∧
      ((∀ n ∈ nodes, s.graph.Names n) → ∀ stack,
        t.graph.HasStack n stack ↔ s.graph.UnionHas nodes stack) := by
  obtain ⟨c, result, grows, inRange, tableGrows, kept, keeps, union⟩ :=
    mergeAll_spec sound.inRange (sound.tables table) nodes
  refine ⟨_, _, by rw [ContextStore.mergeAll, result]; rfl,
    sound.withTable grows inRange tableGrows kept, ?_, union⟩
  simpa using keeps

/-- The search for a canonical node starts with a map of the table or a new one. -/
theorem SoundFor.startMap (sound : s.SoundFor trust) (table : Nat) (map : Option Nat) :
    (map.elim {} (s.maps table) : Canonicals).Sound (trust.Map table map) (s.tables table)
      s.graph := by
  cases map with
  | none => exact Canonicals.sound_empty _ _ _
  | some i => exact sound.maps table i

/-- Finding a canonical node in a store ends with a kept node, which has the stacks of the node if
the map is trusted. -/
theorem SoundFor.intern (sound : s.SoundFor trust) (table : Nat) (map : Option Nat)
    (n : Option Nat) :
    ∃ m t, s.canonical table map n = .ok (m, t) ∧ (t.SoundFor trust ∧ s.Grows t) ∧
      (t.tables table).Keeps t.graph m ∧
      (trust.Map table map → t.graph.SameStacks (s.graph.resolveRef n) m) := by
  obtain ⟨c, result, found, new⟩ :=
    canonicalIn_spec (n := n) sound.inRange (sound.tables table) (sound.startMap table map)
  obtain ⟨sound', grows⟩ := sound.withTable new.grows new.inRange new.tableGrows new.table
  refine ⟨_, _, (by rw [ContextStore.canonical, result]; rfl), ⟨?_, ?_⟩, ?_, new.same⟩
  · cases map with
    | none => exact sound'
    | some i =>
        refine { sound' with maps := fun j k => ?_ }
        by_cases same : j = table
        · subst same
          by_cases here : k = i
          · subst here
            simpa using found
          · simpa [Function.update_of_ne here] using sound'.maps j k
        · simpa [Function.update_of_ne same] using sound'.maps j k
  · exact ⟨grows.graph, grows.tables⟩
  · simpa using new.keeps

/-- Finding a canonical node in a store ends with a kept node that has the same stacks, whatever map
is used. -/
theorem Sound.canonical (sound : s.Sound) (table : Nat) (map : Option Nat) (n : Option Nat) :
    ∃ m t, s.canonical table map n = .ok (m, t) ∧ (t.Sound ∧ s.Grows t) ∧
      (t.tables table).Keeps t.graph m ∧ t.graph.SameStacks (s.graph.resolveRef n) m := by
  obtain ⟨m, t, result, kept, keeps, same⟩ := sound.intern table map n
  exact ⟨m, t, result, kept, keeps, same (Trust.map_all table map)⟩

/-- An operation keeps what a store says, whether it fails or not. -/
theorem exec_sound (sound : s.SoundFor trust) (op : ContextOp) :
    (s.exec op).SoundFor trust ∧ s.Grows (s.exec op) := by
  have stay : s.SoundFor trust ∧ s.Grows s := ⟨sound, .refl s⟩
  cases op with
  | single caller returnTo => exact sound.withGraph (single_grows sound.inRange returnTo.le)
  | ofReturns callers returns =>
      rw [exec]
      cases result : s.graph.ofReturns callers (returns.map (·.val)) with
      | error e => exact stay
      | ok made =>
          refine sound.withGraph (ofReturns_grows sound.inRange (fun r mem => ?_) result)
          obtain ⟨r, -, rfl⟩ := List.mem_map.mp mem
          exact r.le
  | ofChain net chain fits =>
      rw [exec]
      cases result : s.graph.ofChain net chain with
      | error e => exact stay
      | ok made => exact sound.withGraph (enterCalls_grows sound.inRange fits result)
  | merge memo a b =>
      obtain ⟨n, t, result, kept, -⟩ := sound.combine memo a b
      rwa [exec, result]
  | mergeAll table nodes =>
      obtain ⟨n, t, result, kept, -⟩ := sound.mergeAll table nodes
      rwa [exec, result]
  | canonical table map n =>
      obtain ⟨m, t, result, kept, -⟩ := sound.intern table map n
      rwa [exec, result]

/-- A run keeps what a store says. -/
theorem run_sound (sound : s.SoundFor trust) (ops : List ContextOp) :
    (s.run ops).SoundFor trust ∧ s.Grows (s.run ops) := by
  induction ops generalizing s with
  | nil => exact ⟨sound, .refl s⟩
  | cons op ops ih =>
      obtain ⟨sound, first⟩ := exec_sound sound op
      obtain ⟨sound, rest⟩ := ih sound
      exact ⟨sound, first.trans rest⟩

end ContextStore

end GrammarNet
