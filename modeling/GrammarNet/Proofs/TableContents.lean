import GrammarNet.Proofs.CarriedResults
import Mathlib.Data.Set.Card

/-!
What a table of canonical nodes holds.

A table holds one node for each tree that it was asked for, at the top or below, and nothing else.
That no tree is left out is seen at the end: the canonical node of what was asked for is kept, and so
are the nodes below it, which unfold to the same trees. That nothing else is held is kept by each
round, as all planned nodes are below the node that was asked for.

Both need that what is found in a map is right, so each search has to be done with a map that is
trusted. A node in the place of one that its map knew is not stored, and neither is what is below it
(`stored_omits_replacement`). What a table holds is held once and above canonical callers in any
case.

* `Canonizing.Drawn.next`: a round keeps nodes for planned nodes alone.
* `CanonicalTable.Keeps.below`: what is below a node has a kept node when the node has one.
* `exec_fills`, `filled_reached`: one step of a run, and all of it.
* `stored_exactly`: the nodes that a table holds, their trees and their number.
-/

namespace GrammarNet

open StackGraph StackEntry

namespace StackGraph

variable {g h : StackGraph} {table table' : CanonicalTable} {a b n m x : Nat}

/-! ### Nodes below a node -/

/-- The second node is the first, or a caller of a node below it. -/
inductive Below (g : StackGraph) (n : Nat) : Nat → Prop where
  | refl : Below g n n
  | call {m c : Nat} {r : Int} : Below g n m → .call r c ∈ g.entries m → Below g n c

theorem Below.le (below : g.Below n m) : m ≤ n := by
  induction below with
  | refl => exact Nat.le_refl n
  | call _ mem ih => exact Nat.le_trans (Nat.le_of_lt (caller_lt mem rfl)) ih

/-- The nodes below a node stay the same when the graph grows. -/
theorem Grows.below (grows : g.Grows h) (le : n ≤ g.nodes.size) : h.Below n m ↔ g.Below n m := by
  constructor
  · intro below
    induction below with
    | refl => exact .refl
    | @call m c r below mem ih =>
        rw [grows.entries m (Nat.le_trans below.le le)] at mem
        exact ih.call mem
  · intro below
    induction below with
    | refl => exact .refl
    | @call m c r below mem ih =>
        rw [← grows.entries m (Nat.le_trans below.le le)] at mem
        exact ih.call mem

end StackGraph

namespace CanonicalTable

variable {g : StackGraph} {table table' : CanonicalTable} {n m x y : Nat} {k : List Int}

/-- What is below a node has a kept node when the node has one. -/
theorem Keeps.below (sound : table.Sound g) (keeps : table.Keeps g m) (same : g.SameStacks n m)
    (below : g.Below n x) : ∃ y, table.Keeps g y ∧ g.SameStacks x y := by
  induction below with
  | refl => exact ⟨m, keeps, same⟩
  | call _ mem ih =>
      obtain ⟨y, keeps, same⟩ := ih
      obtain ⟨f, mem', matching⟩ := same.exists_match mem
      cases matching with
      | call same' => exact ⟨_, keeps.caller sound mem', same'⟩

/-- Only the node that is given back is added. -/
theorem stored_of_add {n : Option Nat} (added : table.add g n = (m, table'))
    (found : table'.nodes[k]? = some y) : table.nodes[k]? = some y ∨ y = m := by
  unfold add at added
  simp only at added
  split at added
  · cases added
    exact .inl found
  · split at added
    · cases added
      exact .inl found
    · cases added
      rw [Std.TreeMap.getElem?_insert] at found
      split at found
      · cases found
        exact .inr rfl
      · exact .inl found

end CanonicalTable

namespace StackGraph

variable {g h : StackGraph} {table table' : CanonicalTable} {found : Canonicals} {n m x : Nat}

/-! ### Nothing else is kept -/

/-- All nodes that were added to a table have the stacks of nodes below the one that is asked
for. -/
def Draws (g : StackGraph) (table : CanonicalTable) (n : Nat) (h : StackGraph)
    (table' : CanonicalTable) : Prop :=
  ∀ (k : List Int) (y : Nat), table'.nodes[k]? = some y →
    table.nodes[k]? = some y ∨ ∃ x, (g.Below n x ∧ x ≠ root) ∧ h.SameStacks x y

/-- What holds while the canonical node of a node is looked for: all planned nodes are below it, and
nothing else was added. -/
structure Canonizing.Drawn (g : StackGraph) (table : CanonicalTable) (n : Nat) (s : Canonizing) :
    Prop where
  work : ∀ m ∈ s.work, g.Below n m
  draws : Draws g table n s.graph s.table

/-- A round plans callers of a planned node, and adds the node in front alone. -/
theorem Canonizing.Drawn.next {s t : Canonizing} (drawn : s.Drawn g table n)
    (sound : s.Sound True g table n) (le : n ≤ g.nodes.size) (round : canonicalRound s = .next t) :
    t.Drawn g table n := by
  have restBelow : ∀ {m rest}, s.work = m :: rest → ∀ x ∈ rest, g.Below n x :=
    fun front x mem => drawn.work x (front ▸ List.mem_cons_of_mem _ mem)
  cases Canonizing.took_of_round round with
  | known front _ => exact { drawn with work := restBelow front }
  | outer front => exact { drawn with work := restBelow front }
  | @rebuilt m k h c table' rest front inner ready result added =>
      have below := drawn.work m (front ▸ List.mem_cons_self)
      obtain ⟨k', h', c', table'', result', added', new⟩ := sound.rebuild front ready
      rw [result] at result'
      cases result'
      rw [added] at added'
      cases added'
      refine ⟨restBelow front, fun key y here => ?_⟩
      rcases CanonicalTable.stored_of_add added here with here | rfl
      · refine (drawn.draws key y here).imp_right ?_
        rintro ⟨x, inside, same⟩
        have leX := Nat.le_trans (Nat.le_trans inside.1.le le) sound.grows.size_le
        have leY := (sound.table.stored key y here).1.1
        exact ⟨x, inside, (new.grows.sameStacks leX leY).mpr same⟩
      · exact .inr ⟨m, ⟨below, inner⟩, new.same trivial⟩
  | @planned m rest front _ =>
      have below := drawn.work m (front ▸ List.mem_cons_self)
      refine { drawn with work := fun x mem => ?_ }
      rcases List.mem_append.mp mem with mem | mem
      · obtain ⟨e, he, hc⟩ :=
          List.mem_filterMap.mp (List.mem_of_mem_filter (List.mem_reverse.mp mem))
        cases e with
        | ended => cases hc
        | call r c =>
            cases hc
            rw [sound.grows.entries m (Nat.le_trans below.le le)] at he
            exact below.call he
      · exact drawn.work x mem

/-- Finding the canonical node of a node adds nothing but nodes for what is below it. -/
theorem canonicalIn_draws {n : Option Nat} {c : Canonical} (inRange : g.InRange)
    (kept : table.Sound g) (sound : found.Sound True table g)
    (result : g.canonicalIn table found n = .ok c) :
    Draws g table (g.resolveRef n) c.graph c.table := by
  have le := g.resolveRef_le n
  unfold canonicalIn at result
  simp only at result
  generalize g.resolveRef n = n at *
  split at result
  · cases result
    exact fun k y here => .inl here
  · have keeps : ∀ s t, s.Sound True g table n ∧ s.Drawn g table n → canonicalRound s = .next t →
        t.Sound True g table n ∧ t.Drawn g table n :=
      fun s t inv round => ⟨inv.1.next round, inv.2.next inv.1 le round⟩
    have last : ∀ s r, s.Sound True g table n ∧ s.Drawn g table n → canonicalRound s = .done r →
        ∀ s, r = .ok s → Draws g table n s.graph s.table := by
      intro s r inv round
      obtain ⟨rfl, -⟩ := inv.1.done round
      rintro s ⟨⟩
      exact inv.2.draws
    have all := Loop.run_invariant keeps last (canonical_ends g table found n)
      ⟨Canonizing.sound_start inRange kept sound le,
       { work := fun m mem => List.mem_singleton.mp mem ▸ .refl
         draws := fun k y here => .inl here }⟩
    split at result
    · cases result
    · next s run =>
        split at result
        · cases result
          exact all s run
        · cases result

/-- A table keeps a node for `n`, and what was added to it has the stacks of nodes below `n`. -/
structure Fills (table : CanonicalTable) (n : Nat) (h : StackGraph) (table' : CanonicalTable) :
    Prop where
  le : n ≤ h.nodes.size
  keeps : ∃ m, table'.Keeps h m ∧ h.SameStacks n m
  draws : ∀ (k : List Int) (y : Nat), table'.nodes[k]? = some y →
    table.nodes[k]? = some y ∨ ∃ x, (h.Below n x ∧ x ≠ root) ∧ h.SameStacks x y

theorem canonicalIn_fills {n : Option Nat} (inRange : g.InRange) (kept : table.Sound g)
    (sound : found.Sound True table g) :
    ∃ c, g.canonicalIn table found n = .ok c ∧ Fills table (g.resolveRef n) c.graph c.table := by
  obtain ⟨c, result, -, new⟩ := canonicalIn_spec (n := n) inRange kept sound
  have le := g.resolveRef_le n
  refine ⟨c, result, Nat.le_trans le new.grows.size_le, ⟨c.node, new.keeps, new.same trivial⟩,
    fun k y here => ?_⟩
  refine (canonicalIn_draws inRange kept sound result k y here).imp_right ?_
  rintro ⟨x, ⟨below, inner⟩, same⟩
  exact ⟨x, ⟨(new.grows.below le).mpr below, inner⟩, same⟩

/-! ### The tree of a node -/

/-- Only the root has the stacks of the root. -/
theorem SameStacks.eq_root (same : g.SameStacks n root) (le : n ≤ g.nodes.size) : n = root := by
  have all : List.Forall₂ (Matches Eq) (g.entries n) [.ended] :=
    same.matches fun r c d _ mem _ => by cases List.mem_singleton.mp mem
  exact eq_root_of_entries le (eq_of_matches_eq all)

theorem sameTree_equivalence (g : StackGraph) : Equivalence g.SameTree where
  refl n := sameTree_iff_sameStacks.mpr (.refl g n)
  symm same := sameTree_iff_sameStacks.mpr same.sameStacks.symm
  trans same same' := sameTree_iff_sameStacks.mpr (same.sameStacks.trans same'.sameStacks)

/-- What nodes unfold to. -/
def Tree (g : StackGraph) : Type :=
  Quotient ⟨g.SameTree, g.sameTree_equivalence⟩

/-- What a node unfolds to. -/
def tree (g : StackGraph) (n : Nat) : g.Tree :=
  Quotient.mk _ n

theorem tree_eq_iff : g.tree n = g.tree m ↔ g.SameTree n m :=
  ⟨fun same => Quotient.exact same, fun same => Quotient.sound same⟩

end StackGraph

namespace ContextStore

variable {s t : ContextStore} {trust : Trust} {table n m : Nat}

/-! ### One operation -/

/-- The operation asks the table for the canonical node of `n`: its argument, or the node that the
nodes of a list are merged to. -/
inductive Asks (s : ContextStore) (table : Nat) : ContextOp → Nat → Prop where
  | canonical {map n : Option Nat} :
      Asks s table (.canonical table map n) (s.graph.resolveRef n)
  | mergeAll {first merged : Option Nat} {rest : List (Option Nat)} {h : StackGraph} :
      s.graph.mergeFrom {} first rest = .ok (merged, h) →
      Asks s table (.mergeAll table (first :: rest)) (h.resolveRef merged)

/-- The table holds the node. -/
def Stored (s : ContextStore) (table n : Nat) : Prop :=
  ∃ k : List Int, (s.tables table).nodes[k]? = some n

/-- When the operation looks for a canonical node of the table, the map that it uses is trusted. -/
def Trust.Serves (trust : Trust) (table : Nat) : ContextOp → Prop
  | .canonical i map _ => i = table → trust.Map table map
  | _ => True

/-- All nodes that the operation asks for have kept nodes, and nothing is added but what is below
them. -/
structure FillsStore (s : ContextStore) (table : Nat) (op : ContextOp) : Prop where
  keeps : ∀ n, s.Asks table op n → n ≤ (s.exec op).graph.nodes.size ∧
    ∃ m, ((s.exec op).tables table).Keeps (s.exec op).graph m ∧ (s.exec op).graph.SameStacks n m
  draws : ∀ y, (s.exec op).Stored table y → s.Stored table y ∨
    ∃ n x, s.Asks table op n ∧ ((s.exec op).graph.Below n x ∧ x ≠ root) ∧
      (s.exec op).graph.SameStacks x y

theorem after_map_table {ε α : Type} (result : Except ε α) {f : α → Nat × ContextStore}
    (keep : ∀ a, (f a).2.tables table = s.tables table) :
    (s.after (result.map f)).tables table = s.tables table :=
  after_map (P := fun t => t.tables table = s.tables table) result rfl keep

/-- An operation that asks for nothing and leaves the table as it is. -/
theorem FillsStore.of_quiet {op : ContextOp} (quiet : ∀ n, ¬ s.Asks table op n)
    (same : (s.exec op).tables table = s.tables table) : FillsStore s table op where
  keeps n asks := absurd asks (quiet n)
  draws y := by
    rintro ⟨k, here⟩
    rw [same] at here
    exact .inl ⟨k, here⟩

/-- An operation that asks for one node. -/
theorem FillsStore.of_fills {op : ContextOp} {c : StackGraph.Canonical} (top : Nat)
    (asks : ∀ n, s.Asks table op n ↔ n = top) (graph : (s.exec op).graph = c.graph)
    (tables : (s.exec op).tables table = c.table)
    (fills : Fills (s.tables table) top c.graph c.table) : FillsStore s table op where
  keeps n here := by
    obtain rfl := (asks n).mp here
    rw [graph, tables]
    exact ⟨fills.le, fills.keeps⟩
  draws y := by
    rintro ⟨k, here⟩
    rw [tables] at here
    rw [graph]
    exact (fills.draws k y here).imp (fun here => ⟨k, here⟩) fun ⟨x, below, same⟩ =>
      ⟨top, x, (asks top).mpr rfl, below, same⟩

/-- A merge for a table asks it for the merged node. -/
theorem mergeAll_fills (sound : s.SoundFor trust) (table : Nat) (nodes : List (Option Nat)) :
    FillsStore s table (.mergeAll table nodes) := by
  cases nodes with
  | nil =>
      refine .of_quiet (fun n asks => by cases asks) ?_
      exact Function.update_self table _ s.tables
  | cons first rest =>
      obtain ⟨merged, h, result, grows, inRange, -⟩ :=
        @mergeFrom_spec s.graph {} first rest sound.inRange (MergeMemo.sound_empty True s.graph)
      obtain ⟨c, canonical, fills⟩ := canonicalIn_fills (n := merged) inRange
        ((sound.tables table).grow grows) (Canonicals.sound_empty True _ h)
      have done : s.graph.mergeAll (s.tables table) (first :: rest) = .ok c := by
        rw [StackGraph.mergeAll, result]
        exact canonical
      refine .of_fills (h.resolveRef merged) (fun n => ⟨?_, ?_⟩) ?_ ?_ fills
      · rintro (_ | @⟨_, merged', _, h', result'⟩)
        rw [result] at result'
        cases result'
        rfl
      · rintro rfl
        exact .mergeAll result
      · rw [exec, ContextStore.mergeAll, done]
        rfl
      · rw [exec, ContextStore.mergeAll, done]
        exact Function.update_self table _ s.tables

/-- Looking for a canonical node asks for what the reference leads to. -/
theorem canonical_fills (sound : s.SoundFor trust) (table : Nat) {map : Option Nat}
    (trusted : trust.Map table map) (x : Option Nat) :
    FillsStore s table (.canonical table map x) := by
  obtain ⟨c, result, fills⟩ := canonicalIn_fills (n := x) sound.inRange (sound.tables table)
    ((sound.startMap table map).of_trusted trusted)
  refine .of_fills (s.graph.resolveRef x) (fun n => ⟨?_, ?_⟩) ?_ ?_ fills
  · rintro ⟨⟩
    rfl
  · rintro rfl
    exact .canonical
  · rw [exec, ContextStore.canonical, result]
    rfl
  · rw [exec, ContextStore.canonical, result]
    exact Function.update_self table _ s.tables

theorem exec_fills (sound : s.SoundFor trust) (table : Nat) {op : ContextOp}
    (serves : trust.Serves table op) : FillsStore s table op := by
  cases op with
  | single caller returnTo => exact .of_quiet (fun n asks => by cases asks) rfl
  | ofReturns callers returns =>
      refine .of_quiet (fun n asks => by cases asks) ?_
      rw [exec]
      exact after_map_table _ fun _ => rfl
  | ofChain net chain fits =>
      refine .of_quiet (fun n asks => by cases asks) ?_
      rw [exec]
      exact after_map_table _ fun _ => rfl
  | merge memo a b =>
      refine .of_quiet (fun n asks => by cases asks) ?_
      rw [exec, ContextStore.merge]
      exact after_map_table _ fun _ => rfl
  | mergeAll i nodes =>
      by_cases here : i = table
      · exact here ▸ mergeAll_fills sound i nodes
      · refine .of_quiet (fun n asks => ?_) ?_
        · cases asks
          exact here rfl
        · rw [exec, ContextStore.mergeAll]
          exact after_map_table _ fun c => Function.update_of_ne (Ne.symm here) _ _
  | canonical i map x =>
      by_cases here : i = table
      · subst here
        exact canonical_fills sound i (serves rfl) x
      · refine .of_quiet (fun n asks => ?_) ?_
        · cases asks
          exact here rfl
        · rw [exec, ContextStore.canonical]
          exact after_map_table _ fun c => Function.update_of_ne (Ne.symm here) _ _

theorem keeps_iff_stored (sound : s.SoundFor trust) :
    (s.tables table).Keeps s.graph n ↔ n = root ∨ s.Stored table n := by
  refine or_congr_right ⟨fun found => ⟨_, found⟩, ?_⟩
  rintro ⟨k, here⟩
  exact (sound.tables table).find?_eq here

/-- A table has as many nodes as its size says: no node is stored for two contents. -/
theorem encard_stored (sound : s.SoundFor trust) (table : Nat) :
    {n | s.Stored table n}.encard = (s.tables table).size := by
  have stored : ∀ p ∈ (s.tables table).nodes.toList, p.1 = CanonicalTable.key (s.graph.entries p.2) :=
    fun p mem => ((sound.tables table).stored p.1 p.2
      (Std.TreeMap.mem_toList_iff_getElem?_eq_some.mp mem)).2
  have apart : ((s.tables table).nodes.toList.map (·.2)).Nodup := by
    rw [List.nodup_iff_pairwise_ne, List.pairwise_map]
    refine Std.TreeMap.distinct_keys_toList.imp_of_mem fun {p q} memP memQ differ same => differ ?_
    rw [stored p memP, stored q memQ, same]
    exact Std.ReflCmp.compare_self
  have all : {n | s.Stored table n} = ((s.tables table).nodes.toList.map (·.2)).toFinset := by
    ext n
    simp [Stored, Std.TreeMap.mem_toList_iff_getElem?_eq_some]
  rw [all, Set.encard_coe_eq_coe_finsetCard, List.toFinset_card_of_nodup apart, List.length_map,
    Std.TreeMap.length_toList, CanonicalTable.size]

end ContextStore

namespace TrackedStore

variable {s : TrackedStore} {table n : Nat} {steps : List StoreStep}

/-! ### At all moments of a run -/

/-- A step of the run asks the table for the canonical node of `n`. -/
def Asked (table : Nat) (steps : List StoreStep) (n : Nat) : Prop :=
  ∃ before op later, steps = before ++ .op op :: later ∧ (reached before).store.Asks table op n

/-- When the step looks for a canonical node of the table, the map that it uses is trusted. -/
def Serves (table : Nat) (s : TrackedStore) : StoreStep → Prop
  | .op op => s.trust.Serves table op
  | .replace _ _ => True

theorem not_asked_nil : ¬ Asked table [] n := by
  rintro ⟨before, op, later, same, -⟩
  simp at same

theorem asked_concat {step : StoreStep} :
    Asked table (steps ++ [step]) n ↔
      Asked table steps n ∨ ∃ op, step = .op op ∧ (reached steps).store.Asks table op n := by
  constructor
  · rintro ⟨before, op, later, same, asks⟩
    rcases List.eq_nil_or_concat later with rfl | ⟨later, last, rfl⟩
    · obtain ⟨rfl, here⟩ := List.append_inj' same rfl
      cases here
      exact .inr ⟨op, rfl, asks⟩
    · rw [List.concat_eq_append, ← List.cons_append, ← List.append_assoc] at same
      obtain ⟨rfl, -⟩ := List.append_inj' same rfl
      exact .inl ⟨before, op, later, rfl, asks⟩
  · rintro (⟨before, op, later, rfl, asks⟩ | ⟨op, rfl, asks⟩)
    · exact ⟨before, op, later ++ [step], by simp, asks⟩
    · exact ⟨steps, op, [], rfl, asks⟩

theorem asked_canonical {before later : List StoreStep} {map : Option Nat}
    (le : n ≤ (reached before).store.graph.nodes.size) :
    Asked table (before ++ .op (.canonical table map (some n)) :: later) n := by
  have asks : (reached before).store.Asks table (.canonical table map (some n)) _ := .canonical
  have named : (reached before).store.graph.resolveRef (some n) = n := resolve_eq le
  rw [named] at asks
  exact ⟨before, _, later, rfl, asks⟩

/-- A run has kept nodes for all nodes that were asked for, and nothing but what is below them. -/
structure Filled (table : Nat) (steps : List StoreStep) : Prop where
  keeps : ∀ n, Asked table steps n → n ≤ (reached steps).store.graph.nodes.size ∧
    ∃ m, ((reached steps).store.tables table).Keeps (reached steps).store.graph m ∧
      (reached steps).store.graph.SameStacks n m
  draws : ∀ y, (reached steps).store.Stored table y →
    ∃ n x, Asked table steps n ∧ ((reached steps).store.graph.Below n x ∧ x ≠ root) ∧
      (reached steps).store.graph.SameStacks x y

/-- A run stays filled when an operation is done with a map that is trusted. -/
theorem Filled.op (filled : Filled table steps) {op : ContextOp}
    (serves : (reached steps).trust.Serves table op) : Filled table (steps ++ [.op op]) := by
  have sound := reached_sound steps
  have grows : (reached steps).store.Grows ((reached steps).store.exec op) :=
    (ContextStore.exec_sound sound op).2
  have after : (reached (steps ++ [.op op])).store = (reached steps).store.exec op :=
    congrArg store (reached_concat steps (.op op))
  obtain ⟨keeps, draws⟩ := ContextStore.exec_fills sound table serves
  rw [← after] at grows keeps draws
  constructor
  · intro n asked
    rcases asked_concat.mp asked with asked | ⟨_, ⟨⟩, asks⟩
    · obtain ⟨le, m, kept, same⟩ := filled.keeps n asked
      have leM := kept.le (sound.tables table)
      exact ⟨Nat.le_trans le grows.graph.size_le, m,
        kept.grow (sound.tables table) grows.graph (grows.tables table),
        (grows.graph.sameStacks le leM).mpr same⟩
    · exact keeps n asks
  · intro y here
    rcases draws y here with here | ⟨n, x, asks, below, same⟩
    · obtain ⟨n, x, asked, ⟨below, inner⟩, same⟩ := filled.draws y here
      obtain ⟨k, here⟩ := here
      have le := (filled.keeps n asked).1
      have leY := ((sound.tables table).stored k y here).1.1
      exact ⟨n, x, asked_concat.mpr (.inl asked), ⟨(grows.graph.below le).mpr below, inner⟩,
        (grows.graph.sameStacks (Nat.le_trans below.le le) leY).mpr same⟩
    · exact ⟨n, x, asked_concat.mpr (.inr ⟨op, rfl, asks⟩), below, same⟩

/-- A run stays filled when a node is replaced, as neither the graph nor a table changes. -/
theorem Filled.replace (filled : Filled table steps) (old new : Nat) :
    Filled table (steps ++ [.replace old new]) := by
  have asked : ∀ n, Asked table (steps ++ [.replace old new]) n ↔ Asked table steps n := by
    intro n
    simp [asked_concat]
  obtain ⟨keeps, draws⟩ := filled
  constructor
  · intro n here
    rw [reached_concat]
    exact keeps n ((asked n).mp here)
  · intro y here
    rw [reached_concat] at here ⊢
    obtain ⟨n, x, here, below, same⟩ := draws y here
    exact ⟨n, x, (asked n).mpr here, below, same⟩

theorem filled_reached (serve : Along (Serves table) {} steps) : Filled table steps := by
  induction steps using List.reverseRecOn with
  | nil =>
      refine ⟨fun n asked => absurd asked not_asked_nil, fun y => ?_⟩
      rintro ⟨k, here⟩
      simp [reached, run] at here
  | append_singleton steps step ih =>
      obtain ⟨before, last⟩ := along_concat.mp serve
      cases step with
      | op op => exact (ih before).op last
      | replace old new => exact (ih before).replace old new

/-- What the nodes unfold to that a table was asked for, and those below them, without the root. -/
def askedTrees (table : Nat) (steps : List StoreStep) : Set (reached steps).store.graph.Tree :=
  { tree | ∃ n x, Asked table steps n ∧ ((reached steps).store.graph.Below n x ∧ x ≠ root) ∧
      (reached steps).store.graph.tree x = tree }

/-- A filled table holds one node for each tree that it was asked for. -/
theorem Filled.trees (filled : Filled table steps) :
    (reached steps).store.graph.tree '' {m | (reached steps).store.Stored table m} =
      askedTrees table steps := by
  have sound := reached_sound steps
  have kept := sound.tables table
  ext tree
  constructor
  · rintro ⟨m, here, rfl⟩
    obtain ⟨n, x, asked, below, same⟩ := filled.draws m here
    exact ⟨n, x, asked, below, tree_eq_iff.mpr (sameTree_iff_sameStacks.mpr same)⟩
  · rintro ⟨n, x, asked, ⟨below, inner⟩, rfl⟩
    obtain ⟨le, m, keepsM, same⟩ := filled.keeps n asked
    obtain ⟨y, keepsY, same⟩ := keepsM.below kept same below
    refine ⟨y, ((ContextStore.keeps_iff_stored sound).mp keepsY).resolve_left ?_,
      tree_eq_iff.mpr (sameTree_iff_sameStacks.mpr same.symm)⟩
    rintro rfl
    exact inner (same.eq_root (Nat.le_trans below.le le))

/-- At each moment of a run no two of the nodes that a table holds unfold to the same tree, none of
them is the root or unfolds to its tree, and their callers are the root or held as well. So the size
of the table is the number of the trees that it holds. When all searches for canonical nodes of the
table used maps that were trusted, these trees are the ones that it was asked for, at the top or
below. -/
theorem stored_exactly (steps : List StoreStep) (table : Nat) :
    let s := (reached steps).store
    (∀ m m', s.Stored table m → s.Stored table m' → s.graph.SameTree m m' → m = m') ∧
      (∀ m, s.Stored table m → m ≠ root ∧ ¬ s.graph.SameTree m root) ∧
      (∀ m, s.Stored table m → ∀ e ∈ s.graph.entries m,
        (e.caller? = none ∧ e.returnState = endMark) ∨
          ∃ c, e.caller? = some c ∧ (c = root ∨ s.Stored table c)) ∧
      (s.graph.tree '' {m | s.Stored table m}).encard = (s.tables table).size ∧
      (Along (Serves table) {} steps →
        s.graph.tree '' {m | s.Stored table m} = askedTrees table steps ∧
          (askedTrees table steps).encard = (s.tables table).size) := by
  intro s
  have sound : (reached steps).Sound := reached_sound steps
  have kept := sound.tables table
  have unique : ∀ m m', s.Stored table m → s.Stored table m' → s.graph.SameTree m m' → m = m' :=
    fun m m' here here' same =>
      ((ContextStore.keeps_iff_stored sound).mpr (.inr here)).unique kept
        ((ContextStore.keeps_iff_stored sound).mpr (.inr here')) same.sameStacks
  have distinct : Set.InjOn s.graph.tree {m | s.Stored table m} :=
    fun m here m' here' same => unique m m' here here' (tree_eq_iff.mp same)
  have size : (s.graph.tree '' {m | s.Stored table m}).encard = (s.tables table).size := by
    rw [distinct.encard_image, ContextStore.encard_stored sound]
  refine ⟨unique, fun m here => ?_, fun m here e mem => ?_, size, fun serve => ?_⟩
  · obtain ⟨k, found⟩ := here
    have inner := (kept.stored k m found).1.2
    exact ⟨inner, fun same => inner
      (same.sameStacks.eq_root (kept.stored k m found).1.1)⟩
  · cases e with
    | ended => exact .inl ⟨rfl, rfl⟩
    | call r c =>
        have keepsM := (ContextStore.keeps_iff_stored sound).mpr (.inr here)
        exact .inr ⟨c, rfl, (ContextStore.keeps_iff_stored sound).mp (keepsM.caller kept mem)⟩
  · have trees := (filled_reached serve).trees
    exact ⟨trees, trees ▸ size⟩

/-- Two calls are looked for with a map that knows no replaced node, and both are held. -/
theorem stored_exactly_otherReplaced :
    let steps := otherReplaced ++
      [.op (.canonical 0 (some 0) (some 2)), .op (.canonical 0 (some 0) (some 3))]
    (askedTrees 0 steps).encard = ((reached steps).store.tables 0).size ∧
      ∃ m, (reached steps).store.Stored 0 m ∧ (reached steps).store.graph.SameTree m 3 := by
  intro steps
  have trusted : (reached otherReplaced).trust.maps 0 0 := ⟨trivial, rfl⟩
  have serve : Along (Serves 0) {} steps :=
    ⟨trivial, trivial, trivial, trivial, fun _ => trusted, fun _ => trusted, trivial⟩
  obtain ⟨-, -, -, -, filled⟩ := stored_exactly steps 0
  obtain ⟨trees, size⟩ := filled serve
  have names := names_otherReplaced.2.grow
    (reached_grows otherReplaced [.op (.canonical 0 (some 0) (some 2))]).graph
  have asked : Asked 0 steps 3 := asked_canonical (names_some.mp names)
  have mem : (reached steps).store.graph.tree 3 ∈ askedTrees 0 steps :=
    ⟨3, 3, asked, ⟨.refl, by decide⟩, rfl⟩
  rw [← trees] at mem
  obtain ⟨m, stored, same⟩ := mem
  exact ⟨size, m, stored, tree_eq_iff.mp same⟩

/-- A call that was asked for with a map that knew the node before it is not held. -/
theorem stored_omits_replacement :
    let steps := copyReplaced ++ [.op (.canonical 0 (some 0) (some 3))]
    Along Allows {} steps ∧ (reached steps).store.graph.tree 3 ∈ askedTrees 0 steps ∧
      ∀ m, (reached steps).store.Stored 0 m → ¬ (reached steps).store.graph.SameTree m 3 := by
  intro steps
  obtain ⟨graph, tables, known⟩ := known_copyReplaced
  have le : 3 ≤ (reached copyReplaced).store.graph.nodes.size := graph ▸ by decide
  have found := ContextStore.canonical_of_known le (by decide) known
  have same : (reached steps).store = (reached copyReplaced).store := by
    rw [reached_concat, step, ContextStore.exec, found]
    rfl
  refine ⟨along_concat.mpr ⟨allows_copyReplaced, trivial⟩,
    ⟨3, 3, asked_canonical le, ⟨.refl, by decide⟩, rfl⟩, fun m stored => ?_⟩
  rw [same] at stored ⊢
  obtain ⟨key, held⟩ := stored
  rw [tables] at held
  change callTable.nodes[key]? = some m at held
  rw [callTable, Std.TreeMap.getElem?_insert] at held
  split at held
  · cases held
    rw [graph]
    exact not_sameTree_copyStore
  · simp at held

end TrackedStore

end GrammarNet
