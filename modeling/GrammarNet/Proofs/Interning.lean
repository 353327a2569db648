import GrammarNet.StackGraph.Canonical
import GrammarNet.Proofs.MergeUnion

/-!
Canonical nodes are unique.

A table keeps nodes by their entries alone, and compares callers by number. This tells apart what
has different stacks because the callers of a kept node are kept themselves
(`CanonicalTable.Sound`): then two kept nodes with the same stacks are one node
(`CanonicalTable.Keeps.unique`).

* `Canonizing.took_of_round`: what one round of looking for a canonical node can do.
* `canonicalIn_spec`: finding the canonical node of a node ends with a kept node, which has the same
  stacks when what was found before has the stacks that it was found for.
* `mergeAll_spec`: merging a list ends with the kept node for the union of all stacks.

What was found before may be kept nodes with other stacks. As with merges, all of this is stated for
a proposition `trusted`, and says that stacks are the same if it is true. That a kept node is found,
and that the table stays sound, is so in any case.
-/

namespace GrammarNet

open StackGraph StackEntry

/-- An entry can be told from its key, and so can what follows it. -/
theorem StackEntry.key_append_inj {e f : StackEntry} {l m : List Int}
    (same : e.key ++ l = f.key ++ m) : e = f ∧ l = m := by
  cases e with
  | ended =>
      cases f with
      | ended => exact ⟨rfl, (List.cons.inj same).2⟩
      | call s d => simp [StackEntry.key] at same
  | call r c =>
      cases f with
      | ended => simp [StackEntry.key] at same
      | call s d =>
          simp only [StackEntry.key, List.cons_append, List.nil_append, List.cons.injEq,
            Int.natCast_inj, true_and] at same
          obtain ⟨rfl, rfl, rest⟩ := same
          exact ⟨rfl, rest⟩

namespace CanonicalTable

theorem key_cons (e : StackEntry) (es : List StackEntry) : key (e :: es) = e.key ++ key es :=
  List.flatMap_cons

theorem key_cons_ne_nil (e : StackEntry) (es : List StackEntry) : key (e :: es) ≠ [] := by
  cases e <;> simp [key_cons, StackEntry.key]

/-- Different contents have different keys. -/
theorem key_inj {es fs : List StackEntry} (same : key es = key fs) : es = fs := by
  induction es generalizing fs with
  | nil =>
      cases fs with
      | nil => rfl
      | cons f fs => exact absurd same.symm (key_cons_ne_nil f fs)
  | cons e es ih =>
      cases fs with
      | nil => exact absurd same (key_cons_ne_nil e es)
      | cons f fs =>
          rw [key_cons, key_cons] at same
          obtain ⟨rfl, rest⟩ := key_append_inj same
          rw [ih rest]

variable {table table' : CanonicalTable} {g h : StackGraph} {a b n : Nat}

/-- The node is the root, or it is kept for its content. -/
def Keeps (table : CanonicalTable) (g : StackGraph) (n : Nat) : Prop :=
  n = root ∨ table.find? g n = some n

/-- All nodes are kept for their content, and so are their callers. -/
structure Sound (table : CanonicalTable) (g : StackGraph) : Prop where
  stored : ∀ (k : List Int) (m : Nat), table.nodes[k]? = some m →
    (m ≤ g.nodes.size ∧ m ≠ root) ∧ k = key (g.entries m)
  closed : ∀ (k : List Int) (m : Nat), table.nodes[k]? = some m →
    ∀ r c, .call r c ∈ g.entries m → table.Keeps g c

/-- All that the first table keeps is kept by the second. -/
def Grows (table table' : CanonicalTable) : Prop :=
  ∀ (k : List Int) (m : Nat), table.nodes[k]? = some m → table'.nodes[k]? = some m

theorem Grows.refl (table : CanonicalTable) : table.Grows table :=
  fun _ _ found => found

theorem Grows.trans {table'' : CanonicalTable} (first : table.Grows table')
    (second : table'.Grows table'') : table.Grows table'' :=
  fun k m found => second k m (first k m found)

/-- A node that the table holds is found by its own entries. -/
theorem Sound.find?_eq (sound : table.Sound g) {k : List Int} {m : Nat}
    (here : table.nodes[k]? = some m) : table.find? g m = some m := by
  rwa [find?, ← (sound.stored k m here).2]

theorem sound_empty (g : StackGraph) : Sound {} g where
  stored k m found := by simp at found
  closed k m found := by simp at found

theorem Keeps.le (sound : table.Sound g) (keeps : table.Keeps g n) : n ≤ g.nodes.size := by
  rcases keeps with rfl | found
  · exact Nat.zero_le _
  · exact (sound.stored _ _ found).1.1

theorem Keeps.caller (sound : table.Sound g) (keeps : table.Keeps g n) {r : Int} {c : Nat}
    (mem : .call r c ∈ g.entries n) : table.Keeps g c := by
  rcases keeps with rfl | found
  · change _ ∈ StackNode.rootEntries at mem
    simp [StackNode.rootEntries] at mem
  · exact sound.closed _ _ found r c mem

/-- Two kept nodes with the same stacks are one node. -/
theorem Keeps.unique (sound : table.Sound g) (keepsA : table.Keeps g a) (keepsB : table.Keeps g b)
    (same : g.SameStacks a b) : a = b := by
  induction a using Nat.strongRecOn generalizing b with
  | ind a ih =>
      have entries : g.entries a = g.entries b :=
        eq_of_matches_eq <| same.matches fun r c d memA memB below =>
          ih c (caller_lt memA rfl) (keepsA.caller sound memA) (keepsB.caller sound memB) below
      rcases keepsA with rfl | foundA
      · exact (eq_root_of_entries (keepsB.le sound) entries.symm).symm
      · rcases keepsB with rfl | foundB
        · exact eq_root_of_entries (sound.stored _ _ foundA).1.1 entries
        · rw [find?, entries] at foundA
          exact Option.some.inj (foundA.symm.trans foundB)

theorem Keeps.grow (sound : table.Sound g) (graph : g.Grows h) (grows : table.Grows table')
    (keeps : table.Keeps g n) : table'.Keeps h n := by
  refine keeps.imp_right fun found => ?_
  rw [find?, graph.entries n (keeps.le sound)]
  exact grows _ _ found

theorem Sound.grow (sound : table.Sound g) (graph : g.Grows h) : table.Sound h where
  stored k m found := by
    obtain ⟨⟨le, inner⟩, content⟩ := sound.stored k m found
    rw [graph.entries m le]
    exact ⟨⟨Nat.le_trans le graph.size_le, inner⟩, content⟩
  closed k m found r c mem := by
    rw [graph.entries m (sound.stored k m found).1.1] at mem
    exact (sound.closed k m found r c mem).grow sound graph (.refl table)

/-- Kept nodes are told apart by their stacks. -/
theorem Keeps.eq_iff (sound : table.Sound g) (keepsA : table.Keeps g a) (keepsB : table.Keeps g b) :
    a = b ↔ g.SameStacks a b :=
  ⟨fun same => same ▸ .refl g a, keepsA.unique sound keepsB⟩

/-- A node without a kept node of its content may be kept when its callers are. -/
theorem Sound.insert (sound : table.Sound g) (le : n ≤ g.nodes.size) (inner : n ≠ root)
    (missing : table.find? g n = none) (callers : ∀ r c, .call r c ∈ g.entries n → table.Keeps g c) :
    table.Grows ⟨table.nodes.insert (key (g.entries n)) n⟩ ∧
      Sound ⟨table.nodes.insert (key (g.entries n)) n⟩ g := by
  have grows : table.Grows ⟨table.nodes.insert (key (g.entries n)) n⟩ := by
    intro k m found
    rw [Std.TreeMap.getElem?_insert]
    split
    · next here =>
        obtain rfl : key (g.entries n) = k := by simpa using here
        rw [find?, found] at missing
        cases missing
    · exact found
  have same := StackGraph.Grows.refl g
  refine ⟨grows, fun k m found => ?_, fun k m found r c mem => ?_⟩
  · rw [Std.TreeMap.getElem?_insert] at found
    split at found
    · next here =>
        cases found
        obtain rfl : key (g.entries n) = k := by simpa using here
        exact ⟨⟨le, inner⟩, rfl⟩
    · exact sound.stored k m found
  · rw [Std.TreeMap.getElem?_insert] at found
    split at found
    · cases found
      exact (callers r c mem).grow sound same grows
    · exact (sound.closed k m found r c mem).grow sound same grows

/-- A node whose callers are kept is kept, or the node kept for its content. -/
theorem add_spec (sound : table.Sound g) (le : n ≤ g.nodes.size)
    (callers : ∀ r c, .call r c ∈ g.entries n → table.Keeps g c) :
    ∃ m table', table.add g (some n) = (m, table') ∧ table.Grows table' ∧ table'.Sound g ∧
      table'.Keeps g m ∧ g.SameStacks n m := by
  have resolved : g.resolveRef (some n) = n := resolve_eq le
  unfold add
  simp only [resolved]
  split
  · next outer => exact ⟨n, table, rfl, .refl table, sound, .inl outer, .refl g n⟩
  · next inner =>
      split
      · next m found =>
          have content := key_inj (sound.stored _ _ found).2
          exact ⟨m, table, rfl, .refl table, sound, .inr (sound.find?_eq found),
            sameStacks_of_entries content⟩
      · next missing =>
          obtain ⟨grows, sound'⟩ := sound.insert le inner missing callers
          refine ⟨n, _, rfl, grows, sound', .inr ?_, .refl g n⟩
          rw [find?, Std.TreeMap.getElem?_insert_self]

end CanonicalTable

namespace Canonicals

variable {found : Canonicals} {table table' : CanonicalTable} {g h : StackGraph} {n m : Nat}
  {trusted : Prop}

/-- All nodes that were found are kept, and are trusted to have the stacks of the nodes they stand
for. -/
def Sound (found : Canonicals) (trusted : Prop) (table : CanonicalTable) (g : StackGraph) : Prop :=
  ∀ n m, found.find? n = some m →
    table.Keeps g m ∧ (trusted → n ≤ g.nodes.size ∧ g.SameStacks n m)

theorem sound_empty (trusted : Prop) (table : CanonicalTable) (g : StackGraph) :
    Sound {} trusted table g := by
  intro n m here
  simp [Canonicals.find?] at here

theorem Sound.of_trusted (sound : found.Sound trusted table g) (trust : trusted) :
    found.Sound True table g :=
  fun n m here => (sound n m here).imp_right fun alike _ => alike trust

theorem Sound.grow (sound : found.Sound trusted table g) (kept : table.Sound g)
    (graph : g.Grows h) (grows : table.Grows table') : found.Sound trusted table' h := by
  intro n m here
  obtain ⟨keeps, alike⟩ := sound n m here
  refine ⟨keeps.grow kept graph grows, fun trust => ?_⟩
  obtain ⟨le, same⟩ := alike trust
  exact ⟨Nat.le_trans le graph.size_le, (graph.sameStacks le (keeps.le kept)).mpr same⟩

/-- What is found after something was written is what was written, or was found before. -/
theorem of_find?_record {k c : Nat} (here : (found.record n m).find? k = some c) :
    (n = k ∧ m = c) ∨ found.find? k = some c := by
  rw [Canonicals.find?, Canonicals.record, Std.TreeMap.getElem?_insertIfNew] at here
  split at here
  · next new =>
      cases here
      exact .inl ⟨by simpa using new.1, rfl⟩
  · exact .inr here

theorem Sound.record (sound : found.Sound trusted table g) (le : n ≤ g.nodes.size)
    (keeps : table.Keeps g m) (same : trusted → g.SameStacks n m) :
    (found.record n m).Sound trusted table g := by
  intro k c here
  rcases of_find?_record here with ⟨rfl, rfl⟩ | here
  · exact ⟨keeps, fun trust => ⟨le, same trust⟩⟩
  · exact sound k c here

end Canonicals

namespace StackGraph

variable {g h : StackGraph} {table : CanonicalTable} {found : Canonicals} {n : Nat}
  {trusted : Prop}

/-! ### One node -/

/-- When all callers have canonical nodes, the entries above those are made of them. -/
theorem canonicalEntries_matches {entries : List StackEntry}
    (ready : ∀ c ∈ callers entries, (found.find? c).isSome = true) :
    ∃ es, canonicalEntries found entries = .ok es ∧
      List.Forall₂ (Matches fun c d => found.find? c = some d) entries es := by
  induction entries with
  | nil => exact ⟨[], rfl, .nil⟩
  | cons e rest ih =>
      cases e with
      | ended =>
          obtain ⟨es, result, all⟩ := ih ready
          exact ⟨.ended :: es, by rw [canonicalEntries, result]; rfl, .cons .ended all⟩
      | call r c =>
          obtain ⟨here, ready⟩ := List.forall_mem_cons.mp ready
          obtain ⟨d, here⟩ := Option.isSome_iff_exists.mp here
          obtain ⟨es, result, all⟩ := ih ready
          refine ⟨.call r d :: es, ?_, .cons (.call here) all⟩
          rw [canonicalEntries, result]
          simp only [here]
          rfl

/-- A node whose callers have canonical nodes is rebuilt above those. -/
theorem rebuild_spec (inRange : g.InRange) (kept : table.Sound g)
    (sound : found.Sound trusted table g) (le : n ≤ g.nodes.size)
    (ready : ∀ c ∈ callers (g.entries n), (found.find? c).isSome = true) :
    ∃ m h, g.rebuild found n = .ok (m, h) ∧ g.Grows h ∧ h.InRange ∧ m ≤ h.nodes.size ∧
      (trusted → h.SameStacks n m) ∧ ∀ r c, .call r c ∈ h.entries m → table.Keeps h c := by
  obtain ⟨es, result, all⟩ := canonicalEntries_matches ready
  have keeps : ∀ r d, .call r d ∈ es → table.Keeps g d := by
    intro r d mem
    obtain ⟨c, -, here⟩ := exists_call_of_forall₂ (forall₂_matches_symm all) mem
    exact (sound c d here).1
  unfold rebuild
  rw [result]
  simp only
  split
  · next same =>
      exact ⟨n, g, rfl, .refl g, inRange, le, fun _ => .refl g n, same ▸ keeps⟩
  · have fits : g.Fitting es :=
      fitting_of_forall₂ all (fitting_entries inRange le) fun c d here =>
        (sound c d here).1.le kept
    have ne_nil : es ≠ [] := by
      rintro rfl
      exact g.entries_ne_nil n (List.forall₂_nil_right_iff.mp all)
    obtain ⟨m, h, made, new⟩ :=
      made_ofEntries inRange fits (pairwise_of_forall₂ all (g.entries_pairwise n)) ne_nil
    refine ⟨m, h, made, new.grows, new.inRange, new.le, fun trust stack => ?_, fun r c mem => ?_⟩
    · rw [new.grows.hasStack le, hasStack_iff_offers, hasStack_iff_offers, new.entries_eq,
        new.grows.offers fits]
      have alike : List.Forall₂ (Matches g.SameStacks) (g.entries n) es :=
        all.imp fun _ _ h => h.imp fun c d here => ((sound c d here).2 trust).2
      exact offers_congr alike stack
    · rw [new.entries_eq] at mem
      exact (keeps r c mem).grow kept new.grows (.refl table)

/-- The graph and the table grew, and the table keeps a node that is trusted to have the stacks of
another. -/
structure Interned (g : StackGraph) (table : CanonicalTable) (trusted : Prop) (n m : Nat)
    (h : StackGraph) (table' : CanonicalTable) : Prop where
  grows : g.Grows h
  inRange : h.InRange
  tableGrows : table.Grows table'
  table : table'.Sound h
  keeps : table'.Keeps h m
  same : trusted → h.SameStacks n m

/-- A node whose callers have canonical nodes has one itself. -/
theorem rebuild_interned (inRange : g.InRange) (kept : table.Sound g)
    (sound : found.Sound trusted table g) (le : n ≤ g.nodes.size)
    (ready : ∀ c ∈ callers (g.entries n), (found.find? c).isSome = true) :
    ∃ k h m table', g.rebuild found n = .ok (k, h) ∧ table.add h (some k) = (m, table') ∧
      Interned g table trusted n m h table' := by
  obtain ⟨k, h, result, grows, inRange', le', same, keeps⟩ :=
    rebuild_spec inRange kept sound le ready
  obtain ⟨m, table', added, tableGrows, kept', here, same'⟩ :=
    CanonicalTable.add_spec (kept.grow grows) le' keeps
  exact ⟨k, h, m, table', result, added, grows, inRange', tableGrows, kept', here,
    fun trust => (same trust).trans same'⟩

/-! ### All nodes below a node -/

/-- The callers of a node that have no canonical node yet. -/
def Canonizing.missing (s : Canonizing) (m : Nat) : List Nat :=
  (callers (s.graph.entries m)).filter fun c => (s.found.find? c).isNone

/-- When no caller of a node is missing, all of them have canonical nodes. -/
theorem Canonizing.exists_found {s : Canonizing} {m c : Nat} (ready : s.missing m = [])
    (mem : c ∈ callers (s.graph.entries m)) : ∃ d, s.found.find? c = some d := by
  have found := List.filter_eq_nil_iff.mp ready c mem
  rw [Option.isNone_iff_eq_none] at found
  exact Option.ne_none_iff_exists'.mp found

/-- What a round does with the node in front: it is dropped when its canonical node is known, the
root stands for itself, a node whose callers have theirs is rebuilt and kept, and for any other node
the callers are planned. -/
inductive Canonizing.Took (s : Canonizing) : Canonizing → Prop where
  | known {m : Nat} {rest : List Nat} :
      s.work = m :: rest → (s.found.find? m).isSome = true → Took s { s with work := rest }
  | outer {rest : List Nat} :
      s.work = root :: rest → Took s { s with found := s.found.record root root, work := rest }
  | rebuilt {m k : Nat} {h : StackGraph} {c : Nat} {table : CanonicalTable} {rest : List Nat} :
      s.work = m :: rest → m ≠ root → s.missing m = [] → s.graph.rebuild s.found m = .ok (k, h) →
      s.table.add h (some k) = (c, table) →
      Took s { graph := h, table, found := (s.found.record m c).record c c, work := rest }
  | planned {m : Nat} {rest : List Nat} :
      s.work = m :: rest → m ≠ root → Took s { s with work := (s.missing m).reverse ++ s.work }

theorem Canonizing.took_of_round {s t : Canonizing} (round : canonicalRound s = .next t) :
    s.Took t := by
  unfold canonicalRound at round
  split at round
  · cases round
  · next m rest front =>
      split at round
      · next here =>
          cases round
          exact .known front here
      · split at round
        · next outer =>
            cases round
            subst outer
            exact .outer front
        · next inner =>
            split at round
            · next ready =>
                split at round
                · cases round
                · next k h result =>
                    cases round
                    exact .rebuilt front inner ready result rfl
            · next c more missing =>
                cases round
                rw [← missing, ← front]
                exact .planned front inner

/-- A round is the last when no node is left, or when a node cannot be rebuilt. -/
theorem Canonizing.round_done {s : Canonizing} {r : Except StackError Canonizing}
    (round : canonicalRound s = .done r) :
    (s.work = [] ∧ r = .ok s) ∨ ∃ m rest e, s.work = m :: rest ∧ s.missing m = [] ∧
      s.graph.rebuild s.found m = .error e ∧ r = .error e := by
  unfold canonicalRound at round
  split at round
  · next idle =>
      cases round
      exact .inl ⟨idle, rfl⟩
  · next m rest front =>
      split at round
      · cases round
      · split at round
        · cases round
        · split at round
          · next ready =>
              split at round
              · next e failed =>
                  cases round
                  exact .inr ⟨m, rest, e, front, ready, failed, rfl⟩
              · cases round
          · cases round

/-- What holds while the canonical node of a node is looked for. -/
structure Canonizing.Sound (trusted : Prop) (g : StackGraph) (table : CanonicalTable) (n : Nat)
    (s : Canonizing) : Prop where
  grows : g.Grows s.graph
  inRange : s.graph.InRange
  tableGrows : table.Grows s.table
  table : s.table.Sound s.graph
  found : s.found.Sound trusted s.table s.graph
  work : ∀ m ∈ s.work, m ≤ s.graph.nodes.size
  pending : (s.found.find? n).isSome = true ∨ n ∈ s.work

theorem Canonizing.sound_start (inRange : g.InRange) (kept : table.Sound g)
    (sound : found.Sound trusted table g) (le : n ≤ g.nodes.size) :
    Canonizing.Sound trusted g table n { graph := g, table, found, work := [n] } where
  grows := .refl g
  inRange := inRange
  tableGrows := .refl table
  table := kept
  found := sound
  work _ mem := List.mem_singleton.mp mem ▸ le
  pending := .inr List.mem_cons_self

/-- The node in front has its canonical node when its callers have theirs. -/
theorem Canonizing.Sound.rebuild {s : Canonizing} {m : Nat} {rest : List Nat}
    (sound : s.Sound trusted g table n) (front : s.work = m :: rest) (ready : s.missing m = []) :
    ∃ k h c table', s.graph.rebuild s.found m = .ok (k, h) ∧
      s.table.add h (some k) = (c, table') ∧ Interned s.graph s.table trusted m c h table' := by
  refine rebuild_interned sound.inRange sound.table sound.found
    (sound.work m (front ▸ List.mem_cons_self)) fun c mem => ?_
  exact Option.isSome_iff_exists.mpr (Canonizing.exists_found ready mem)

/-- What is left to do when the node in front was found. -/
theorem Canonizing.Sound.pop {s : Canonizing} {m : Nat} {rest : List Nat} {found : Canonicals}
    (sound : s.Sound trusted g table n) (front : s.work = m :: rest)
    (here : (found.find? m).isSome = true)
    (wider : ∀ k, (s.found.find? k).isSome = true → (found.find? k).isSome = true) :
    (found.find? n).isSome = true ∨ n ∈ rest := by
  rcases sound.pending with done | planned
  · exact .inl (wider n done)
  · rw [front] at planned
    rcases List.mem_cons.mp planned with rfl | planned
    · exact .inl here
    · exact .inr planned

/-- A round keeps what holds. -/
theorem Canonizing.Sound.next {s t : Canonizing} (sound : s.Sound trusted g table n)
    (round : canonicalRound s = .next t) : t.Sound trusted g table n := by
  have restLe : ∀ {m rest}, s.work = m :: rest → ∀ k ∈ rest, k ≤ s.graph.nodes.size :=
    fun front k mem => sound.work k (front ▸ List.mem_cons_of_mem _ mem)
  cases Canonizing.took_of_round round with
  | known front here =>
      exact { sound with work := restLe front, pending := sound.pop front here fun _ done => done }
  | @outer rest front =>
      have le := sound.work root (front ▸ List.mem_cons_self)
      exact
        { sound with
          found := sound.found.record le (.inl rfl) fun _ => .refl _ root
          work := restLe front
          pending := sound.pop front Canonicals.find?_record_self fun _ done =>
            Canonicals.find?_record_of_isSome done }
  | @rebuilt m k h c table' rest front _ ready result added =>
      have le := sound.work m (front ▸ List.mem_cons_self)
      obtain ⟨k', h', c', table'', result', added', new⟩ := sound.rebuild front ready
      rw [result] at result'
      cases result'
      rw [added] at added'
      cases added'
      have found := sound.found.grow sound.table new.grows new.tableGrows
      exact
        { grows := sound.grows.trans new.grows
          inRange := new.inRange
          tableGrows := sound.tableGrows.trans new.tableGrows
          table := new.table
          found := (found.record (Nat.le_trans le new.grows.size_le) new.keeps
            new.same).record (new.keeps.le new.table) new.keeps fun _ => .refl h c
          work := fun k mem => Nat.le_trans (restLe front k mem) new.grows.size_le
          pending := sound.pop front
            (Canonicals.find?_record_of_isSome Canonicals.find?_record_self) fun _ done =>
            Canonicals.find?_record_of_isSome (Canonicals.find?_record_of_isSome done) }
  | @planned m rest front _ =>
      have le := sound.work m (front ▸ List.mem_cons_self)
      refine { sound with work := fun k mem => ?_, pending := ?_ }
      · rcases List.mem_append.mp mem with mem | mem
        · obtain ⟨e, he, hc⟩ :=
            List.mem_filterMap.mp (List.mem_of_mem_filter (List.mem_reverse.mp mem))
          exact caller_le le he hc
        · exact sound.work k mem
      · exact sound.pending.imp_right fun mem => List.mem_append_right _ mem

/-- When no node is left, the node has its canonical node. -/
theorem Canonizing.Sound.done {s : Canonizing} {r : Except StackError Canonizing}
    (sound : s.Sound trusted g table n) (round : canonicalRound s = .done r) :
    r = .ok s ∧ (s.found.find? n).isSome = true := by
  rcases Canonizing.round_done round with ⟨idle, rfl⟩ | ⟨m, rest, e, front, ready, failed, -⟩
  · refine ⟨rfl, sound.pending.resolve_right ?_⟩
    rw [idle]
    exact List.not_mem_nil
  · obtain ⟨k, h, c, table', result, -⟩ := sound.rebuild front ready
    rw [failed] at result
    cases result

/-- The loop ends with the canonical node of the node. -/
theorem canonical_run (inRange : g.InRange) (kept : table.Sound g)
    (sound : found.Sound trusted table g) (le : n ≤ g.nodes.size) :
    ∃ s, Loop.run canonicalRound { graph := g, table, found, work := [n] }
        (canonical_ends g table found n) = .ok s ∧ s.found.Sound trusted s.table s.graph ∧
      ∃ m, s.found.find? n = some m ∧ Interned g table trusted n m s.graph s.table := by
  have keeps : ∀ s t, s.Sound trusted g table n → canonicalRound s = .next t →
      t.Sound trusted g table n :=
    fun _ _ sound round => sound.next round
  have last : ∀ s r, s.Sound trusted g table n → canonicalRound s = .done r →
      ∃ s, r = .ok s ∧ s.found.Sound trusted s.table s.graph ∧
        ∃ m, s.found.find? n = some m ∧ Interned g table trusted n m s.graph s.table := by
    intro s r sound round
    obtain ⟨rfl, here⟩ := sound.done round
    obtain ⟨m, here⟩ := Option.isSome_iff_exists.mp here
    obtain ⟨keeps, alike⟩ := sound.found n m here
    exact ⟨s, rfl, sound.found, m, here, sound.grows, sound.inRange, sound.tableGrows,
      sound.table, keeps, fun trust => (alike trust).2⟩
  exact Loop.run_invariant keeps last (canonical_ends g table found n)
    (Canonizing.sound_start inRange kept sound le)

/-- Finding the canonical node of a node ends with a kept node, which is trusted to have the same
stacks. -/
theorem canonicalIn_spec {n : Option Nat} (inRange : g.InRange) (kept : table.Sound g)
    (sound : found.Sound trusted table g) :
    ∃ c, g.canonicalIn table found n = .ok c ∧ c.found.Sound trusted c.table c.graph ∧
      Interned g table trusted (g.resolveRef n) c.node c.graph c.table := by
  unfold canonicalIn
  simp only
  split
  · next outer =>
      exact ⟨_, rfl, sound, .refl g, inRange, .refl table, kept, .inl outer, fun _ => .refl g _⟩
  · obtain ⟨s, run, sound', m, here, new⟩ :=
      canonical_run inRange kept sound (g.resolveRef_le n)
    rw [run]
    simp only [here]
    exact ⟨_, rfl, sound', new⟩

/-! ### Merging a list -/

/-- The reference is to a node that was given out. -/
def Names (g : StackGraph) (n : Option Nat) : Prop :=
  ∀ k, n = some k → k ≤ g.nodes.size

theorem names_some : g.Names (some n) ↔ n ≤ g.nodes.size :=
  ⟨fun names => names n rfl, fun le k here => by cases here; exact le⟩

theorem Names.grow {n : Option Nat} (names : g.Names n) (grows : g.Grows h) : h.Names n :=
  fun k here => Nat.le_trans (names k here) grows.size_le

theorem Names.resolveRef_eq {n : Option Nat} (names : g.Names n) (grows : g.Grows h) :
    h.resolveRef n = g.resolveRef n := by
  cases n with
  | none => rfl
  | some k => exact (resolve_eq (names.grow grows k rfl)).trans (resolve_eq (names k rfl)).symm

/-- One of the nodes stands for this stack; no nodes stand for the empty stack. -/
def UnionHas (g : StackGraph) (nodes : List (Option Nat)) (stack : List Int) : Prop :=
  (nodes = [] ∧ stack = []) ∨ ∃ n ∈ nodes, g.HasStack (g.resolveRef n) stack

theorem unionHas_nil {stack : List Int} : g.UnionHas [] stack ↔ stack = [] := by
  simp [UnionHas]

theorem unionHas_cons {n : Option Nat} {nodes : List (Option Nat)} {stack : List Int} :
    g.UnionHas (n :: nodes) stack ↔
      g.HasStack (g.resolveRef n) stack ∨ ∃ m ∈ nodes, g.HasStack (g.resolveRef m) stack := by
  simp [UnionHas]

/-- The nodes of a list keep their stacks. -/
theorem Grows.unionHas (grows : g.Grows h) {nodes : List (Option Nat)}
    (names : ∀ n ∈ nodes, g.Names n) {stack : List Int} :
    h.UnionHas nodes stack ↔ g.UnionHas nodes stack := by
  refine or_congr_right (exists_congr fun n => and_congr_right fun mem => ?_)
  rw [(names n mem).resolveRef_eq grows, grows.hasStack (g.resolveRef_le n)]

/-- Merging a list to a node ends with the union of all stacks. -/
theorem mergeFrom_spec {memo : MergeMemo} {merged : Option Nat} {rest : List (Option Nat)}
    (inRange : g.InRange) (sound : memo.Sound True g) :
    ∃ n h, g.mergeFrom memo merged rest = .ok (n, h) ∧ g.Grows h ∧ h.InRange ∧
      ((∀ k ∈ merged :: rest, g.Names k) → ∀ stack,
        h.HasStack (h.resolveRef n) stack ↔ g.UnionHas (merged :: rest) stack) := by
  induction rest generalizing g memo merged with
  | nil => exact ⟨merged, g, rfl, .refl g, inRange, fun _ stack => by simp [UnionHas]⟩
  | cons m rest ih =>
      obtain ⟨first, result, sound', combined⟩ := merge_spec inRange sound
      have joined := combined.joined trivial
      obtain ⟨n, h, more, grows, inRange', union⟩ := ih joined.inRange sound'
      rw [mergeFrom, result]
      refine ⟨n, h, more, joined.grows.trans grows, inRange', fun names stack => ?_⟩
      have names : ∀ k ∈ rest, g.Names k := fun k mem =>
        names k (List.mem_cons_of_mem _ (List.mem_cons_of_mem _ mem))
      have names' : ∀ k ∈ some first.node :: rest, first.graph.Names k := by
        intro k mem
        rcases List.mem_cons.mp mem with rfl | mem
        · exact names_some.mpr joined.le
        · exact (names k mem).grow joined.grows
      have kept : (∃ k ∈ rest, first.graph.HasStack (first.graph.resolveRef k) stack) ↔
          ∃ k ∈ rest, g.HasStack (g.resolveRef k) stack :=
        exists_congr fun k => and_congr_right fun mem => by
          rw [(names k mem).resolveRef_eq joined.grows, joined.grows.hasStack (g.resolveRef_le k)]
      have named : first.graph.resolveRef (some first.node) = first.node := resolve_eq joined.le
      calc h.HasStack (h.resolveRef n) stack
          ↔ first.graph.HasStack first.node stack ∨
              ∃ k ∈ rest, g.HasStack (g.resolveRef k) stack := by
            rw [union names', unionHas_cons, kept, named]
        _ ↔ (g.HasStack (g.resolveRef merged) stack ∨ g.HasStack (g.resolveRef m) stack) ∨
              ∃ k ∈ rest, g.HasStack (g.resolveRef k) stack := by
            rw [joined.joins, joined.grows.hasStack (g.resolveRef_le _),
              joined.grows.hasStack (g.resolveRef_le _)]
        _ ↔ g.UnionHas (merged :: m :: rest) stack := by
            rw [unionHas_cons, or_assoc, List.exists_mem_cons_iff]

/-- Merging a list ends with the kept node for the union of all stacks. -/
theorem mergeAll_spec (inRange : g.InRange) (kept : table.Sound g) (nodes : List (Option Nat)) :
    ∃ c, g.mergeAll table nodes = .ok c ∧ g.Grows c.graph ∧ c.graph.InRange ∧
      table.Grows c.table ∧ c.table.Sound c.graph ∧ c.table.Keeps c.graph c.node ∧
      ((∀ n ∈ nodes, g.Names n) → ∀ stack,
        c.graph.HasStack c.node stack ↔ g.UnionHas nodes stack) := by
  cases nodes with
  | nil =>
      exact ⟨_, rfl, .refl g, inRange, .refl table, kept, .inl rfl, fun _ stack => by
        rw [hasStack_root, unionHas_nil]⟩
  | cons n rest =>
      obtain ⟨merged, h, result, grows, inRange', union⟩ :=
        mergeFrom_spec inRange (MergeMemo.sound_empty True g)
      obtain ⟨c, canonical, -, new⟩ :=
        canonicalIn_spec inRange' (kept.grow grows) (Canonicals.sound_empty True table h)
      rw [mergeAll, result]
      exact ⟨c, canonical, grows.trans new.grows, new.inRange, new.tableGrows, new.table,
        new.keeps, fun names stack => by
          rw [← new.same trivial stack, new.grows.hasStack (h.resolveRef_le _), union names]⟩

end StackGraph

end GrammarNet
