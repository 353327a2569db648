import GrammarNet.Proofs.ContextRuns

/-!
Nodes that are given up, and nodes that are put in their place.

A graph keeps every node. A program need not: a node that nothing refers to any more may be given
up, and a newer node may be put in its place. What a memo, a table or a map gives back is held by it
and stays. But a memo and a map do not hold the nodes that they find something for. They know these
by their place alone. So when such a node is replaced, what was written for it is found for the node
that replaces it.

A `TrackedStore` is a store with a record of where this has happened: a memo or a map is trusted
until a node that it finds something for is replaced. As long as no such node is given up, all of
them are trusted.

* `MergeMemo.find?_replace`, `Canonicals.find?_replace`: what is found for a node that replaces
  another.
* `TrackedStore.step_sound`, `TrackedStore.reached_sound`: in all runs, tables hold what they should
  hold, and so do the memos and maps that are trusted.
* `TrackedStore.reached_ops`: runs that replace no node are the runs of `ContextStore.reached`.
-/

namespace GrammarNet

open StackGraph StackEntry

/-! ### Other keys -/

section Rekeying

variable {α β : Type} [Ord α]

/-- The entries of a map under other keys. Of the entries that come under one key, the first in the
order of the old keys is kept. -/
def rekeyed (f : α → α) (map : Std.TreeMap α β) : Std.TreeMap α β :=
  map.foldl (fun made a b => made.insertIfNew (f a) b) ∅

variable [Std.TransOrd α] [Std.LawfulEqOrd α] [DecidableEq α]

theorem getElem?_foldl_insertIfNew (f : α → α) (l : List (α × β)) (made : Std.TreeMap α β) (k : α) :
    (l.foldl (fun made p => made.insertIfNew (f p.1) p.2) made)[k]? =
      (made[k]?).or ((l.find? fun p => f p.1 = k).map (·.2)) := by
  induction l generalizing made with
  | nil => simp
  | cons p l ih =>
      rw [List.foldl_cons, ih, Std.TreeMap.getElem?_insertIfNew, List.find?_cons]
      by_cases here : f p.1 = k
      · subst here
        cases old : made[f p.1]? with
        | none => simp [Std.TreeMap.mem_iff_isSome_getElem?, old]
        | some b => simp [Std.TreeMap.mem_iff_isSome_getElem?, old]
      · simp [here]

/-- What is found under a key is the first entry that comes under it. -/
theorem getElem?_rekeyed (f : α → α) (map : Std.TreeMap α β) (k : α) :
    (rekeyed f map)[k]? = (map.toList.find? fun p => f p.1 = k).map (·.2) := by
  rw [rekeyed, Std.TreeMap.foldl_eq_foldl_toList, getElem?_foldl_insertIfNew]
  simp

variable {f : α → α} {map : Std.TreeMap α β} {k : α} {b : β}

/-- What is found under a key was there before, under a key that is now this one. -/
theorem exists_of_getElem?_rekeyed (found : (rekeyed f map)[k]? = some b) :
    ∃ a, map[a]? = some b ∧ f a = k := by
  rw [getElem?_rekeyed, Option.map_eq_some_iff] at found
  obtain ⟨⟨a, b⟩, first, rfl⟩ := found
  exact ⟨a, Std.TreeMap.mem_toList_iff_getElem?_eq_some.mp (List.mem_of_find?_eq_some first),
    by simpa using List.find?_some first⟩

/-- A new key finds what its old key found when no other key becomes the same. -/
theorem getElem?_rekeyed_of_unique {a : α} (alone : ∀ c ∈ map, f c = f a → c = a) :
    (rekeyed f map)[f a]? = map[a]? := by
  have same : ∀ b, (rekeyed f map)[f a]? = some b → map[a]? = some b := by
    intro b found
    obtain ⟨c, here, one⟩ := exists_of_getElem?_rekeyed found
    have mem : c ∈ map := Std.TreeMap.mem_iff_isSome_getElem?.mpr (by rw [here]; rfl)
    obtain rfl := alone c mem one
    exact here
  cases found : (rekeyed f map)[f a]? with
  | some b => exact (same b found).symm
  | none =>
      rw [getElem?_rekeyed, Option.map_eq_none_iff, List.find?_eq_none] at found
      refine (Option.eq_none_iff_forall_ne_some.mpr fun b here => ?_).symm
      simpa using found (a, b) (Std.TreeMap.mem_toList_iff_getElem?_eq_some.mpr here)

end Rekeying

/-! ### Memos and maps -/

namespace MergeMemo

variable {memo : MergeMemo} {g : StackGraph} {trusted : Prop} {a b old new : Nat}

/-- The memo has a result for the node and another. -/
def Knows (memo : MergeMemo) (n : Nat) : Prop :=
  ∃ key ∈ memo.results, n ∈ key

/-- The memo after a node took the place of another. -/
def replace (memo : MergeMemo) (old new : Nat) : MergeMemo :=
  ⟨rekeyed (List.map (Function.update id old new)) memo.results⟩

theorem exists_pair_of_map {f : Nat → Nat} {key : List Nat} (same : key.map f = [a, b]) :
    ∃ c d, key = [c, d] ∧ f c = a ∧ f d = b := by
  obtain ⟨c, rest, rfl, first, same⟩ := List.map_eq_cons_iff.mp same
  obtain ⟨d, rest, rfl, second, same⟩ := List.map_eq_cons_iff.mp same
  obtain rfl := List.map_eq_nil_iff.mp same
  exact ⟨c, d, rfl, first, second⟩

/-- The results for a node become results for the node that replaces it. -/
theorem find?_replace (old : Nat) (fresh : ¬ memo.Knows new) (otherA : a ≠ new) (otherB : b ≠ new) :
    (memo.replace old new).find? (Function.update id old new a) (Function.update id old new b) =
      memo.find? a b := by
  have inj : ∀ x y, x ≠ new → y ≠ new →
      Function.update id old new x = Function.update id old new y → x = y := by
    intro x y otherX otherY same
    by_cases hx : x = old <;> by_cases hy : y = old <;> simp_all
  have moved : ∀ x y, x ≠ new → y ≠ new →
      (memo.replace old new).results[[Function.update id old new x, Function.update id old new y]]? =
        memo.results[[x, y]]? := by
    intro x y otherX otherY
    refine getElem?_rekeyed_of_unique (f := List.map (Function.update id old new)) (a := [x, y]) ?_
    intro key mem same
    obtain ⟨z, w, rfl, first, second⟩ := exists_pair_of_map same
    have other : ∀ m ∈ [z, w], m ≠ new := fun m here is => fresh ⟨_, mem, is ▸ here⟩
    rw [inj z x (other z (by simp)) otherX first, inj w y (other w (by simp)) otherY second]
  unfold MergeMemo.find?
  rw [moved a b otherA otherB, moved b a otherB otherA]

/-- Results stay results for as long as the nodes that they are for are there. -/
theorem Sound.replace (sound : memo.Sound trusted g) :
    (memo.replace old new).Sound (trusted ∧ ¬ memo.Knows old) g := by
  intro a b n found
  obtain ⟨key, here, same⟩ := exists_of_getElem?_rekeyed found
  obtain ⟨c, d, rfl, first, second⟩ := exists_pair_of_map same
  obtain ⟨le, union⟩ := sound c d n here
  refine ⟨le, fun ⟨trust, untouched⟩ => ?_⟩
  have mem : [c, d] ∈ memo.results := Std.TreeMap.mem_iff_isSome_getElem?.mpr (by rw [here]; rfl)
  have other : ∀ m ∈ [c, d], m ≠ old := fun m inside is => untouched ⟨_, mem, is ▸ inside⟩
  rw [Function.update_of_ne (other c (by simp))] at first
  rw [Function.update_of_ne (other d (by simp))] at second
  obtain rfl : c = a := first
  obtain rfl : d = b := second
  exact union trust

end MergeMemo

namespace Canonicals

variable {found : Canonicals} {table : CanonicalTable} {g : StackGraph} {trusted : Prop}
  {m old new : Nat}

/-- The map after a node took the place of another. -/
def replace (found : Canonicals) (old new : Nat) : Canonicals :=
  ⟨rekeyed (Function.update id old new) found.nodes⟩

/-- What was found for a node is found for the node that replaces it. Nothing else can be written
for the newer node, as there is something already. -/
theorem find?_replace (less : old < new) (here : found.find? old = some m) :
    (found.replace old new).find? new = some m := by
  have mem : (old, m) ∈ found.nodes.toList := Std.TreeMap.mem_toList_iff_getElem?_eq_some.mpr here
  have comes : Function.update id old new old = new := Function.update_self ..
  rw [find?, replace, getElem?_rekeyed, Option.map_eq_some_iff]
  cases first : found.nodes.toList.find? fun p => Function.update id old new p.1 = new with
  | none =>
      rw [List.find?_eq_none] at first
      exact absurd comes (by simpa using first _ mem)
  | some p =>
      refine ⟨p, rfl, ?_⟩
      obtain ⟨is, before, after, list, others⟩ := List.find?_eq_some_iff_append.mp first
      have ordered := found.nodes.ordered_keys_toList
      rw [list] at mem ordered
      rcases List.mem_append.mp mem with mem | mem
      · exact absurd comes (by simpa using others _ mem)
      · rcases List.mem_cons.mp mem with rfl | mem
        · rfl
        · -- The first node that becomes the newer one would come before the old one.
          have earlier := (List.pairwise_cons.mp (List.pairwise_append.mp ordered).2.1).1 _ mem
          have ahead : p.1 < old := Nat.compare_eq_lt.mp earlier
          have is : p.1 = new := by
            simpa [Function.update_of_ne (Nat.ne_of_lt ahead)] using is
          omega

/-- What was found is kept, and has the same stacks for as long as the nodes that it was found for
are there. -/
theorem Sound.replace (sound : found.Sound trusted table g) :
    (found.replace old new).Sound (trusted ∧ found.find? old = none) table g := by
  intro n m here
  obtain ⟨k, there, same⟩ := exists_of_getElem?_rekeyed here
  obtain ⟨keeps, alike⟩ := sound k m there
  refine ⟨keeps, fun ⟨trust, untouched⟩ => ?_⟩
  have other : k ≠ old := by
    rintro rfl
    rw [find?, there] at untouched
    cases untouched
  rw [Function.update_of_ne other] at same
  obtain rfl : k = n := same
  exact alike trust

end Canonicals

/-! ### Stores in which nodes are replaced -/

/-- Nothing in the store refers to the node: it is no caller of another node, and no memo, table or
map gives it back. -/
structure ContextStore.Loose (s : ContextStore) (n : Nat) : Prop where
  inner : n ≠ root
  callers : ∀ m r, .call r n ∉ s.graph.entries m
  memos : ∀ i (key : List Nat), (s.memos i).results[key]? ≠ some n
  tables : ∀ i (key : List Int), (s.tables i).nodes[key]? ≠ some n
  maps : ∀ i j m, (s.maps i j).find? m ≠ some n

/-- When all calls are made above the root, no other node is a caller. -/
theorem StackGraph.caller_eq_root {g : StackGraph}
    (all : ∀ node ∈ g.nodes, ∀ e ∈ node.entries, e.caller?.getD root = root) {m c : Nat} {r : Int}
    (mem : .call r c ∈ g.entries m) : c = root := by
  rcases g.entries_cases m with outer | ⟨k, inside, -, entries⟩
  · rw [outer] at mem
    cases List.mem_singleton.mp mem
  · rw [entries] at mem
    exact all _ (Array.getElem_mem inside) _ mem

/-- What a map gives back is held by its table, or is the root. -/
theorem ContextStore.SoundFor.maps_ne {s : ContextStore} {trust : ContextStore.Trust} {n : Nat}
    (sound : s.SoundFor trust) (inner : n ≠ root)
    (tables : ∀ i (key : List Int), (s.tables i).nodes[key]? ≠ some n) (i j m : Nat) :
    (s.maps i j).find? m ≠ some n := by
  intro found
  rcases (sound.maps i j m n found).1 with outer | held
  · exact inner outer
  · exact tables i _ held

/-- A step of a run in which nodes may be replaced. -/
inductive StoreStep where
  /-- An operation. -/
  | op (op : ContextOp)
  /-- The first node is given up, and the second is put in its place. -/
  | replace (old new : Nat)

/-- A store in which nodes may have been replaced, and the memos and maps that can be trusted. -/
structure TrackedStore where
  store : ContextStore := {}
  trust : ContextStore.Trust := .all

namespace TrackedStore

variable {s t : TrackedStore}

/-- The store after a step. When a node is replaced, what memos and maps have for it they have for
the other node from then on, and those that have something are not trusted any more. -/
def step (s : TrackedStore) : StoreStep → TrackedStore
  | .op op => { s with store := s.store.exec op }
  | .replace old new =>
      { store :=
          { s.store with
            memos := fun i => (s.store.memos i).replace old new
            maps := fun i j => (s.store.maps i j).replace old new }
        trust :=
          { memos := fun i => s.trust.memos i ∧ ¬ (s.store.memos i).Knows old
            maps := fun i j => s.trust.maps i j ∧ (s.store.maps i j).find? old = none } }

/-- The store after a list of steps. -/
def run (s : TrackedStore) (steps : List StoreStep) : TrackedStore :=
  steps.foldl step s

/-- The store that a list of steps reaches from the empty one. -/
def reached (steps : List StoreStep) : TrackedStore :=
  run {} steps

/-- What holds of each step of a list and of the store that it is done in. -/
def Along (P : TrackedStore → StoreStep → Prop) (s : TrackedStore) : List StoreStep → Prop
  | [] => True
  | step :: steps => P s step ∧ (s.step step).Along P steps

theorem along_concat {P : TrackedStore → StoreStep → Prop} {steps : List StoreStep}
    {step : StoreStep} :
    s.Along P (steps ++ [step]) ↔ s.Along P steps ∧ P (s.run steps) step := by
  induction steps generalizing s with
  | nil => exact and_comm
  | cons first steps ih => exact (and_congr_right' ih).trans and_assoc.symm

/-- A program can do the step: a node is replaced only when nothing refers to it, and only by the
node that was made last. What is shown of all runs does not need this. -/
def Allows (s : TrackedStore) : StoreStep → Prop
  | .op _ => True
  | .replace old new =>
      s.store.Loose old ∧ old < new ∧ new = s.store.graph.nodes.size

/-- All that the tables hold is true of the nodes, and so is what trusted memos and maps hold. -/
abbrev Sound (s : TrackedStore) : Prop :=
  s.store.SoundFor s.trust

/-- A step keeps what a store says, and nodes are kept. -/
theorem step_sound (sound : s.Sound) (step : StoreStep) :
    (s.step step).Sound ∧ s.store.Grows (s.step step).store := by
  cases step with
  | op op => exact ContextStore.exec_sound sound op
  | replace old new =>
      refine ⟨?_, .refl _, fun i => .refl _⟩
      exact
        { inRange := sound.inRange
          memos := fun i => (sound.memos i).replace
          tables := sound.tables
          maps := fun i j => (sound.maps i j).replace }

theorem run_sound (sound : s.Sound) (steps : List StoreStep) :
    (s.run steps).Sound ∧ s.store.Grows (s.run steps).store := by
  induction steps generalizing s with
  | nil => exact ⟨sound, .refl _⟩
  | cons step steps ih =>
      obtain ⟨sound, first⟩ := step_sound sound step
      obtain ⟨sound, rest⟩ := ih sound
      exact ⟨sound, first.trans rest⟩

theorem reached_sound (steps : List StoreStep) : (reached steps).Sound :=
  (run_sound ContextStore.sound_start steps).1

theorem reached_append (before later : List StoreStep) :
    reached (before ++ later) = (reached before).run later :=
  List.foldl_append

theorem reached_concat (before : List StoreStep) (step : StoreStep) :
    reached (before ++ [step]) = (reached before).step step :=
  reached_append before [step]

/-- A run that starts with an operation goes on from the store that the operation leaves behind. -/
theorem run_op {op : ContextOp} {u : ContextStore} {steps : List StoreStep}
    (result : s.store.exec op = u) : s.run (.op op :: steps) = run ⟨u, s.trust⟩ steps := by
  rw [run, List.foldl_cons, step, result]
  rfl

/-- A run that goes on keeps the nodes that it has. -/
theorem reached_grows (before later : List StoreStep) :
    (reached before).store.Grows (reached (before ++ later)).store := by
  rw [reached_append]
  exact (run_sound (reached_sound before) later).2

/-- A run goes on from what an operation gives. -/
theorem grows_reached {before later : List StoreStep} {op : ContextOp} {u : ContextStore}
    (result : (reached before).store.exec op = u) :
    u.Grows (reached (before ++ .op op :: later)).store := by
  have grows := reached_grows (before ++ [.op op]) later
  rw [List.append_assoc, List.singleton_append, reached_concat, step, result] at grows
  exact grows

/-- A run that replaces no node is a run of operations, and all memos and maps are trusted. -/
theorem reached_ops (ops : List ContextOp) :
    reached (ops.map .op) = ⟨ContextStore.reached ops, .all⟩ := by
  have from_ : ∀ s : ContextStore,
      run ⟨s, .all⟩ (ops.map .op) = ⟨s.run ops, .all⟩ := by
    induction ops with
    | nil => exact fun s => rfl
    | cons op ops ih => exact fun s => ih (s.exec op)
  exact from_ {}

end TrackedStore

end GrammarNet
