/-!
Graphs of call stacks.

A node of the graph stands for a set of call stacks. Each of its entries either says that a stack
may end here, or names a state to return to and the node of the callers below it. Nodes are only
ever added, and a node's callers are older than the node, so a graph has no cycles. Node `0`, the
root, stands for the empty stack.

The entries of a node are ascending by return state, with the entry for the end last, and each node
carries a digest of the stacks below it (`StackGraph.digest`), which equal nodes share.
-/

namespace GrammarNet

/-- One way on from a node. -/
inductive StackEntry where
  /-- The stack ends here. -/
  | ended
  /-- Return to a state, with the callers of a node below it. -/
  | call (returnTo : Int) (caller : Nat)
  deriving DecidableEq, Repr

namespace StackEntry

/-- The return state that marks the end of a stack. -/
def endMark : Int := 2147483647

/-- The entry for a return state, which may be the end mark. -/
def ofReturn (returnTo : Int) (caller : Nat) : StackEntry :=
  if returnTo = endMark then ended else call returnTo caller

/-- The return state of an entry; the end mark for the end. -/
def returnState : StackEntry → Int
  | ended => endMark
  | call returnTo _ => returnTo

/-- The node of the callers below an entry. -/
def caller? : StackEntry → Option Nat
  | ended => none
  | call _ caller => some caller

/-- The same entry with other callers below it. -/
def withCaller (f : Nat → Nat) : StackEntry → StackEntry
  | ended => ended
  | call returnTo caller => call returnTo (f caller)

/-- The order of the entries of a node: by return state, the end last. -/
def before : StackEntry → StackEntry → Bool
  | call r _, call s _ => decide (r < s)
  | call .., ended => true
  | ended, _ => false

theorem before_trans {a b c : StackEntry} (h₁ : a.before b = true) (h₂ : b.before c = true) :
    a.before c = true := by
  cases a <;> cases b <;> cases c <;> simp_all [before]
  omega

/-- Each entry comes before the next. -/
def ascending : List StackEntry → Bool
  | [] | [_] => true
  | a :: b :: rest => a.before b && ascending (b :: rest)

theorem ascending_iff {l : List StackEntry} :
    ascending l = true ↔ l.Pairwise (fun a b => a.before b = true) := by
  induction l with
  | nil => simp [ascending]
  | cons a l ih =>
      cases l with
      | nil => simp [ascending]
      | cons b rest =>
          rw [ascending, Bool.and_eq_true, ih, List.pairwise_cons (a := a)]
          refine ⟨fun ⟨h, hp⟩ => ⟨fun c hc => ?_, hp⟩, fun ⟨h, hp⟩ => ⟨h b List.mem_cons_self, hp⟩⟩
          rcases List.mem_cons.1 hc with rfl | hc
          · exact h
          · exact before_trans h ((List.pairwise_cons.1 hp).1 c hc)

/-- Mixes a value into a digest. -/
def mix (h v : UInt64) : UInt64 :=
  h ^^^ (v + 0x9e3779b97f4a7c15 + h <<< (6 : UInt64) + h >>> (2 : UInt64))

/-- The digest of the callers below an entry, given the digests of nodes; zero for the end. -/
def digestBelow (below : Nat → UInt64) (e : StackEntry) : UInt64 :=
  (e.caller?.map below).getD 0

/-- The digest of a list of entries, given the digests of the nodes below them: all callers are
mixed in first, then all return states. -/
def digest (below : Nat → UInt64) (entries : List StackEntry) : UInt64 :=
  let callers := entries.map (digestBelow below)
  let returns := entries.map fun e => UInt64.ofInt e.returnState
  (callers ++ returns).foldl mix 1

/-- A digest depends on nothing but the digests of the callers. -/
theorem digest_congr {f g : Nat → UInt64} {entries : List StackEntry}
    (h : ∀ e ∈ entries, ∀ c, e.caller? = some c → f c = g c) :
    digest f entries = digest g entries := by
  have below : entries.map (digestBelow f) = entries.map (digestBelow g) := by
    apply List.map_congr_left
    intro e mem
    cases caller : e.caller? with
    | none => simp [digestBelow, caller]
    | some c => simp [digestBelow, caller, h e mem c caller]
  rw [digest, digest, below]

end StackEntry

/-- A node as it is stored. -/
structure StackNode where
  entries : List StackEntry
  digest : UInt64
  deriving DecidableEq

namespace StackNode

/-- The entries of the root. -/
def rootEntries : List StackEntry := [.ended]

/-- The digest of the root. -/
def rootDigest : UInt64 := StackEntry.digest (fun _ => 0) rootEntries

/-- The digest of a node by its number, where `nodes` holds the nodes from number one on. -/
def digestOf (nodes : Array StackNode) : Nat → UInt64
  | 0 => rootDigest
  | k + 1 =>
      match nodes[k]? with
      | some node => node.digest
      | none => rootDigest

/-- A node that may stand behind the first `k` stored nodes. -/
structure Admitted (nodes : Array StackNode) (k : Nat) (node : StackNode) : Prop where
  callers_le : ∀ e ∈ node.entries, ∀ c, e.caller? = some c → c ≤ k
  ascending : StackEntry.ascending node.entries = true
  ne_nil : node.entries ≠ []
  ne_root : node.entries ≠ rootEntries
  digest_eq : node.digest = StackEntry.digest (digestOf nodes) node.entries

theorem digestOf_push {nodes : Array StackNode} {node : StackNode} {n : Nat}
    (h : n ≤ nodes.size) : digestOf (nodes.push node) n = digestOf nodes n := by
  cases n with
  | zero => rfl
  | succ k =>
      have hk : k < nodes.size := by omega
      simp [digestOf, hk, Array.getElem?_push_lt]

theorem Admitted.push {nodes : Array StackNode} {k : Nat} {node new : StackNode}
    (hk : k ≤ nodes.size) (h : Admitted nodes k node) : Admitted (nodes.push new) k node :=
  { h with
    digest_eq := h.digest_eq.trans <| StackEntry.digest_congr fun e he c hc =>
      (digestOf_push (Nat.le_trans (h.callers_le e he c hc) hk)).symm }

end StackNode

/-- Why a node cannot be made. -/
inductive StackError where
  /-- Callers and return states differ in number, or there are none. -/
  | arity
  /-- The return states do not ascend. -/
  | order
  /-- Two callers of a pair to be merged have not been merged. -/
  | unmerged
  /-- A caller of a node to be made canonical has not been made canonical. -/
  | unvisited
  deriving DecidableEq, Repr

namespace StackError

/-- The text of an error. -/
def message : StackError → String
  | arity => "prediction context needs one parent per return state"
  | order => "prediction context return states must be strictly increasing"
  | unmerged => "callers were not merged"
  | unvisited => "callers were not made canonical"

end StackError

/-- A store of stack nodes. Node `0` is the root and is not stored; a number that was not given out
names the root as well. -/
structure StackGraph where
  /-- The nodes from number one on. -/
  nodes : Array StackNode := #[]
  admitted : ∀ k (h : k < nodes.size), StackNode.Admitted nodes k nodes[k] := by
    exact fun _ h => absurd h (Nat.not_lt_zero _)

namespace StackGraph

/-- The graph with the root alone. -/
def empty : StackGraph := {}

instance : Inhabited StackGraph := ⟨empty⟩

/-- The empty stack. -/
def root : Nat := 0

/-- The number of a node, or the root for a number that was not given out. -/
def resolve (g : StackGraph) (n : Nat) : Nat :=
  if n ≤ g.nodes.size then n else root

/-- The node that a reference names; no reference names the root. -/
def resolveRef (g : StackGraph) (n : Option Nat) : Nat :=
  g.resolve (n.getD root)

theorem resolve_le (g : StackGraph) (n : Nat) : g.resolve n ≤ g.nodes.size := by
  unfold resolve root
  split <;> omega

/-- The entries of a node, ascending. -/
def entries (g : StackGraph) : Nat → List StackEntry
  | 0 => StackNode.rootEntries
  | k + 1 =>
      match g.nodes[k]? with
      | some node => node.entries
      | none => StackNode.rootEntries

/-- The digest of a node; nodes with the same stacks have the same digest. -/
def digest (g : StackGraph) (n : Nat) : UInt64 :=
  StackNode.digestOf g.nodes n

/-- The return states of a node, ascending. -/
def returns (g : StackGraph) (n : Nat) : List Int :=
  (g.entries n).map (·.returnState)

/-- One of the stacks of the node is empty. -/
def hasEnded (g : StackGraph) (n : Nat) : Bool :=
  (g.entries n).contains .ended

/-- The text of a node: its return states, with `$` for the end. -/
def text (g : StackGraph) (n : Nat) : String :=
  let entry : StackEntry → String
    | .ended => "$"
    | .call returnTo _ => toString returnTo
  "[" ++ String.intercalate ", " ((g.entries n).map entry) ++ "]"

/-- The callers below an entry of a node. -/
def callerAt? (g : StackGraph) (n : Nat) (index : Nat) : Option Nat :=
  ((g.entries n)[index]?).bind (·.caller?)

/-! ### What the entries of a node are like -/

theorem entries_cases (g : StackGraph) (n : Nat) :
    g.entries n = StackNode.rootEntries ∨
      ∃ k, ∃ h : k < g.nodes.size, n = k + 1 ∧ g.entries n = g.nodes[k].entries := by
  cases n with
  | zero => exact .inl rfl
  | succ k =>
      by_cases h : k < g.nodes.size
      · exact .inr ⟨k, h, rfl, by simp [entries, h]⟩
      · exact .inl (by simp [entries, h])

/-- The callers of a node are older than the node. -/
theorem caller_lt {g : StackGraph} {n c : Nat} {e : StackEntry} (he : e ∈ g.entries n)
    (hc : e.caller? = some c) : c < n := by
  rcases g.entries_cases n with h | ⟨k, hk, rfl, h⟩
  · rw [h] at he
    simp only [StackNode.rootEntries, List.mem_singleton] at he
    subst he
    cases hc
  · rw [h] at he
    have := (g.admitted k hk).callers_le e he c hc
    omega

theorem entries_ascending (g : StackGraph) (n : Nat) :
    StackEntry.ascending (g.entries n) = true := by
  rcases g.entries_cases n with h | ⟨k, hk, rfl, h⟩
  · rw [h]; rfl
  · rw [h]; exact (g.admitted k hk).ascending

theorem entries_ne_nil (g : StackGraph) (n : Nat) : g.entries n ≠ [] := by
  rcases g.entries_cases n with h | ⟨k, hk, rfl, h⟩
  · rw [h]; simp [StackNode.rootEntries]
  · rw [h]; exact (g.admitted k hk).ne_nil

/-! ### Making nodes -/

/-- Adds a node with entries that may stand behind the nodes of the graph. -/
def push (g : StackGraph) (entries : List StackEntry)
    (callers_le : ∀ e ∈ entries, ∀ c, e.caller? = some c → c ≤ g.nodes.size)
    (ascending : StackEntry.ascending entries = true)
    (ne_nil : entries ≠ []) (ne_root : entries ≠ StackNode.rootEntries) : Nat × StackGraph :=
  let node : StackNode := ⟨entries, StackEntry.digest g.digest entries⟩
  (g.nodes.size + 1,
    { nodes := g.nodes.push node
      admitted := fun k h => by
        rw [Array.size_push] at h
        rw [Array.getElem_push]
        split
        · next hk => exact (g.admitted k hk).push (Nat.le_of_lt hk)
        · have hk : k = g.nodes.size := by omega
          subst hk
          exact StackNode.Admitted.push (Nat.le_refl _)
            ⟨callers_le, ascending, ne_nil, ne_root, rfl⟩ })

section Push

variable (g : StackGraph) (entries : List StackEntry)
    (callers_le : ∀ e ∈ entries, ∀ c, e.caller? = some c → c ≤ g.nodes.size)
    (ascending : StackEntry.ascending entries = true)
    (ne_nil : entries ≠ []) (ne_root : entries ≠ StackNode.rootEntries)

theorem size_push :
    (g.push entries callers_le ascending ne_nil ne_root).2.nodes.size = g.nodes.size + 1 :=
  Array.size_push _

/-- A new node has its entries, and all other nodes keep theirs. -/
theorem entries_push (n : Nat) :
    (g.push entries callers_le ascending ne_nil ne_root).2.entries n =
      if n = g.nodes.size + 1 then entries else g.entries n := by
  cases n with
  | zero => rw [if_neg (by omega)]; rfl
  | succ k =>
      simp only [push, StackGraph.entries, Array.getElem?_push, Nat.add_right_cancel_iff]
      by_cases h : k = g.nodes.size
      · rw [if_pos h, if_pos h]
      · rw [if_neg h, if_neg h]

end Push

/-- The node with these entries. Their callers are resolved first; the entry for the end alone is
the root. -/
def ofEntries (g : StackGraph) (entries : List StackEntry) :
    Except StackError (Nat × StackGraph) :=
  let resolved := entries.map (·.withCaller g.resolve)
  if h₁ : resolved = [] then .error .arity
  else if h₂ : StackEntry.ascending resolved = true then
    if h₃ : resolved = StackNode.rootEntries then .ok (root, g)
    else
      .ok (g.push resolved (by
        intro e he c hc
        obtain ⟨e', _, rfl⟩ := List.mem_map.1 he
        cases e' with
        | ended => cases hc
        | call r c' =>
            cases hc
            exact g.resolve_le c') h₂ h₁ h₃)
  else .error .order

/-- The node that returns to one state, with the callers of a node below it. -/
def single (g : StackGraph) (caller : Option Nat) (returnTo : Int) : Nat × StackGraph :=
  if returnTo = StackEntry.endMark then (root, g)
  else
    g.push [.call returnTo (g.resolveRef caller)]
      (by
        intro e he c hc
        rw [List.mem_singleton] at he
        subst he
        cases hc
        exact g.resolve_le _)
      rfl (by simp) (by simp [StackNode.rootEntries])

/-- The node that returns to the given states, each with the callers of a node below it. -/
def ofReturns (g : StackGraph) (callers : List (Option Nat)) (returns : List Int) :
    Except StackError (Nat × StackGraph) :=
  if callers.length = returns.length then
    g.ofEntries (List.zipWith (fun c r => .ofReturn r (c.getD root)) callers returns)
  else .error .arity

/-- The node above `caller` that returns to each of the states in turn, the last on top. -/
def stack (g : StackGraph) (caller : Nat) : List Int → Nat × StackGraph
  | [] => (g.resolve caller, g)
  | r :: rest =>
      let (n, g) := g.single (some caller) r
      stack g n rest

end StackGraph

end GrammarNet
