import GrammarNet.Proofs.Configurations
import Mathlib.Algebra.BigOperators.Ring.Finset
import Mathlib.Algebra.Order.BigOperators.Group.List
import Mathlib.Algebra.Order.Group.Nat

/-!
How long a lookahead walk takes.

A walk ends in any network. How high its stacks grow depends on the rules that are registered: each
call marks a rule that was not marked, and only registered rules are marked, so there are never more
calls above the node that a walk stands on than registered rules. This bounds the number of
positions, and each of them is entered once. What is planned on entering one is bounded as well, so a
number goes down in every round.

* `Loop.runFor_of_size`: a loop is done after as many rounds as the size it starts with.
* `Took.weight_lt`: what one round plans.
* `Took.marked`: a round marks registered rules alone.
* `walk_bounded`: the walk is over within a number of rounds that is known before.
-/

namespace GrammarNet

namespace Loop

variable {σ ρ : Type} {body : σ → Round σ ρ}

/-- When every round makes a number smaller, the loop is done after as many rounds as that number
says. -/
theorem runFor_of_size {inv : σ → Prop} {size : σ → Nat}
    (step : ∀ s t, inv s → body s = .next t → inv t ∧ size t < size s) {s : σ} (start : inv s)
    {n : Nat} (le : size s < n) :
    ∃ t r, Reaches body s t ∧ body t = .done r ∧ runFor body n s = some r := by
  induction n generalizing s with
  | zero => exact absurd le (Nat.not_lt_zero _)
  | succ n ih =>
      rw [runFor]
      cases round : body s with
      | done r => exact ⟨s, r, .start, round, rfl⟩
      | next t =>
          obtain ⟨keep, less⟩ := step s t start round
          obtain ⟨u, r, reaches, last, run⟩ := ih keep (by omega)
          exact ⟨u, r, reaches.head round, last, run⟩

end Loop

namespace Network

/-- The rule is registered. -/
def HasRule (net : Network) (rule : Int) : Prop :=
  0 ≤ rule ∧ rule < net.rules.size

instance (net : Network) (rule : Int) : Decidable (net.HasRule rule) :=
  inferInstanceAs (Decidable (_ ∧ _))

/-- The rules of calls and of stop states are registered. -/
structure RulesRegistered (net : Network) : Prop where
  calls : net.All fun _ s => ∀ t ∈ s.transitions, ∀ rule ∈ t.label.callee?.toList, net.HasRule rule
  stops : net.All fun _ s => s.kind = .ruleStop → net.HasRule s.rule

/-- The numbers of the registered rules. -/
def ruleNumbers (net : Network) : List Int :=
  (List.range net.rules.size).map Int.ofNat

theorem length_ruleNumbers (net : Network) : net.ruleNumbers.length = net.rules.size := by
  simp [ruleNumbers]

theorem nodup_ruleNumbers (net : Network) : net.ruleNumbers.Nodup :=
  List.nodup_range.map fun _ _ => Int.ofNat.inj

theorem mem_ruleNumbers {net : Network} {rule : Int} :
    rule ∈ net.ruleNumbers ↔ net.HasRule rule := by
  simp only [ruleNumbers, List.mem_map, List.mem_range, HasRule]
  constructor
  · rintro ⟨n, less, rfl⟩
    simp only [Int.ofNat_eq_natCast]
    omega
  · rintro ⟨nonneg, less⟩
    exact ⟨rule.toNat, by omega, by simp [nonneg]⟩

/-- The number of edges. -/
def edgeTotal (net : Network) : Nat :=
  (net.states.toList.map fun slot => slot.elim 0 (·.transitions.length)).sum

theorem length_le_edgeTotal {net : Network} {n : Nat} {s : State} (hs : net.get? n = some s) :
    s.transitions.length ≤ net.edgeTotal := by
  have mem : some s ∈ net.states.toList := by
    obtain ⟨slot, found, rfl⟩ : ∃ slot, net.states[n]? = some slot ∧ slot = some s := by
      rw [get?, Option.join_eq_some_iff] at hs
      exact ⟨some s, hs, rfl⟩
    exact Array.mem_toList_iff.mpr (Array.mem_of_getElem? found)
  exact List.le_sum_of_mem (List.mem_map.mpr ⟨some s, mem, rfl⟩)

end Network

namespace StackGraph

/-- The number of entries of all nodes. -/
def entryTotal (g : StackGraph) : Nat :=
  (g.nodes.toList.map (·.entries.length)).sum + 1

theorem length_le_entryTotal (g : StackGraph) (n : Nat) : (g.entries n).length ≤ g.entryTotal := by
  rcases g.entries_cases n with outer | ⟨k, inside, -, entries⟩
  · rw [outer]
    exact Nat.le_add_left 1 _
  · rw [entries]
    have mem : g.nodes[k].entries.length ∈ g.nodes.toList.map (·.entries.length) :=
      List.mem_map.mpr ⟨g.nodes[k], by simp, rfl⟩
    exact Nat.le_succ_of_le (List.le_sum_of_mem mem)

end StackGraph

namespace Lookahead

open Network

variable {ground : Ground} {net : Network}

/-! ### The number of positions -/

theorem length_listsUpTo {α : Type} (l : List α) (n : Nat) :
    (listsUpTo l n).length = ∑ k ∈ Finset.range (n + 1), l.length ^ k := by
  induction n with
  | zero => simp [listsUpTo]
  | succ n ih =>
      rw [listsUpTo, Finset.sum_range_succ', List.length_cons, List.length_flatMap]
      simp [ih, Finset.mul_sum, pow_succ']

/-- The number of positions is the number of states, times that of nodes, times that of lists of
calls. -/
theorem length_positions (net : Network) (depth top : Nat) :
    (positions net depth top).length =
      net.states.size * ((top + 1) * ∑ k ∈ Finset.range (depth + 1), (frames net).length ^ k) := by
  simp [positions, List.length_flatMap, length_listsUpTo]

/-! ### What a round plans -/

theorem weight_append (xs ys : List Task) : weight (xs ++ ys) = weight xs + weight ys := by
  induction xs with
  | nil => simp [weight]
  | cons task xs ih => simp only [List.cons_append, weight_cons, ih, Nat.add_assoc]

theorem weight_edgeTasks (n : Nat) (stack : CallStack) (edges : List Transition) :
    weight (edgeTasks n stack edges) = 3 * edges.length := by
  rw [← List.length_zipIdx (l := edges), edgeTasks]
  induction edges.zipIdx with
  | nil => rfl
  | cons p l ih =>
      rw [List.map_cons, weight_cons, ih, List.length_cons, Task.weight]
      omega

theorem weight_returnTasks_le (returns : List CallStack.Return) :
    weight (returnTasks returns) ≤ returns.length := by
  induction returns with
  | nil => exact Nat.le_refl 0
  | cons way returns ih =>
      cases way with
      | ended => exact Nat.le_succ_of_le ih
      | resume r stack =>
          change 1 + weight (returnTasks returns) ≤ returns.length + 1
          omega

theorem length_returns_le (g : StackGraph) (stack : CallStack) :
    (stack.returns g).length ≤ g.entryTotal := by
  obtain ⟨calls, base⟩ := stack
  cases calls with
  | nil => simpa [CallStack.returns] using g.length_le_entryTotal base
  | cons frame calls => exact Nat.le_add_left 1 _

/-- More than what a walk plans when it enters a position. -/
def planTotal (net : Network) (g : StackGraph) : Nat :=
  3 * net.edgeTotal + g.entryTotal + 1

theorem Took.weight_lt {w w' : Walk} (took : Took ground w w') :
    weight w'.tasks < weight w.tasks + planTotal ground.net ground.graph := by
  unfold planTotal
  cases took with
  | restored front | passed front | called front | barred front | noted front | consumed front
  | absent front | known front | finished front =>
      rw [front]
      simp only [weight_cons, Task.weight]
      omega
  | @left n s stack tasks front =>
      have returns := weight_returnTasks_le (stack.returns ground.graph)
      have few := length_returns_le ground.graph stack
      rw [front]
      simp only [weight_append, weight_cons, Task.weight]
      omega
  | @opened n s stack tasks front hs =>
      have few := Network.length_le_edgeTotal hs
      rw [front]
      simp only [weight_append, weight_edgeTasks, weight_cons, Task.weight]
      omega

/-! ### Registered rules alone are marked -/

theorem hasRule_of_frame (registered : net.RulesRegistered) {f : Frame} (mem : f ∈ frames net) :
    f.rule ∈ net.ruleNumbers := by
  obtain ⟨n, -, mem⟩ := List.mem_flatMap.mp mem
  split at mem
  · cases mem
  · next s hs =>
      obtain ⟨⟨t, i⟩, edge, made⟩ := List.mem_filterMap.mp mem
      simp only at made
      split at made
      · next follow rule level label =>
          cases made
          refine Network.mem_ruleNumbers.mpr (registered.calls n s hs t ?_ rule ?_)
          · exact List.fst_mem_of_mem_zipIdx edge
          · rw [label]
            exact List.mem_singleton.mpr rfl
      · cases made

/-- The walk has marked registered rules alone, and will mark no others when work is done. -/
structure Marked (net : Network) (w : Walk) : Prop where
  running : ∀ r ∈ w.running, net.HasRule r
  restores : ∀ r on, .restore r on ∈ w.tasks → net.HasRule r

theorem marked_setRunning {running : List Int} {rule : Int}
    (all : ∀ r ∈ running, net.HasRule r) (here : net.HasRule rule) (on : Bool) :
    ∀ r ∈ setRunning running rule on, net.HasRule r := by
  intro r mem
  rw [mem_setRunning] at mem
  split at mem
  · next same => exact same ▸ here
  · exact all r mem

theorem not_restore_mem_edgeTasks {n : Nat} {stack : CallStack} {edges : List Transition} {r : Int}
    {on : Bool} : .restore r on ∉ edgeTasks n stack edges := by
  simp [edgeTasks]

theorem not_restore_mem_returnTasks {returns : List CallStack.Return} {r : Int} {on : Bool} :
    .restore r on ∉ returnTasks returns := by
  intro mem
  obtain ⟨way, -, made⟩ := List.mem_filterMap.mp mem
  cases way with
  | ended => cases made
  | resume r stack => cases made

/-- A round marks registered rules alone. -/
theorem Took.marked {w w' : Walk} (took : Took ground w w') {top : Nat}
    (registered : ground.net.RulesRegistered)
    (balanced : Balanced ground.net ground.net.ruleNumbers top w.running w.tasks)
    (marked : Marked ground.net w) : Marked ground.net w' := by
  have rest : ∀ {task tasks}, w.tasks = task :: tasks →
      ∀ r on, .restore r on ∈ tasks → ground.net.HasRule r :=
    fun front r on mem => marked.restores r on (front ▸ List.mem_cons_of_mem _ mem)
  have visiting : ∀ {task tasks m stack}, w.tasks = task :: tasks →
      ∀ r on, .restore r on ∈ (.visit m stack :: tasks : List Task) → ground.net.HasRule r := by
    intro task tasks m stack front r on mem
    rcases List.mem_cons.mp mem with same | mem
    · cases same
    · exact rest front r on mem
  cases took with
  | @restored rule on tasks front =>
      have here := marked.restores rule on (front ▸ List.mem_cons_self)
      exact ⟨marked_setRunning marked.running here on, rest front⟩
  | passed front _ => exact ⟨marked.running, visiting front⟩
  | @called n i returnTo t rule precedence stack tasks front label fresh =>
      rw [front] at balanced
      have edge : edge? ground.net n i = some ⟨t.target, .call returnTo rule precedence⟩ := by
        rw [balanced.1.1, ← label]
      have here : ground.net.HasRule rule :=
        Network.mem_ruleNumbers.mp (hasRule_of_frame registered (mem_frames edge))
      refine ⟨marked_setRunning marked.running here true, fun r on mem => ?_⟩
      rcases List.mem_cons.mp mem with same | mem
      · cases same
      · rcases List.mem_cons.mp mem with same | mem
        · cases same
          exact here
        · exact rest front r on mem
  | barred front | noted front | consumed front | absent front | known front | finished front =>
      exact ⟨marked.running, rest front⟩
  | @left n s stack tasks front hs kind =>
      have here := registered.stops n s hs kind
      refine ⟨marked_setRunning marked.running here false, fun r on mem => ?_⟩
      rcases List.mem_append.mp mem with mem | mem
      · exact absurd mem not_restore_mem_returnTasks
      · rcases List.mem_cons.mp mem with same | mem
        · cases same
          exact here
        · exact rest front r on mem
  | @opened n s stack tasks front =>
      refine ⟨marked.running, fun r on mem => ?_⟩
      rcases List.mem_append.mp mem with mem | mem
      · exact absurd mem not_restore_mem_edgeTasks
      · exact rest front r on mem

/-! ### The bound -/

/-- There are no more calls on the stack of the piece of work than registered rules, and the rule
that it marks is registered. -/
def Task.Bounded (net : Network) : Task → Prop
  | .visit _ stack | .follow _ _ _ stack => stack.calls.length ≤ net.rules.size
  | .restore rule _ => net.HasRule rule

theorem bounded_of_balanced {running : List Int} {top : Nat} {tasks : List Task}
    (balanced : Balanced net net.ruleNumbers top running tasks)
    (restores : ∀ r on, .restore r on ∈ tasks → net.HasRule r) : ∀ task ∈ tasks, task.Bounded net := by
  have low : ∀ {running stack}, Fits net net.ruleNumbers top running stack →
      stack.calls.length ≤ net.rules.size := fun fits =>
    net.length_ruleNumbers ▸ Nat.le_trans fits.length_le (runningCount_le _ _)
  induction tasks generalizing running with
  | nil => simp
  | cons task tasks ih =>
      have later := fun r on mem => restores r on (List.mem_cons_of_mem task mem)
      cases task with
      | visit n stack => exact List.forall_mem_cons.mpr ⟨low balanced.1, ih balanced.2 later⟩
      | follow n i t stack =>
          exact List.forall_mem_cons.mpr ⟨low balanced.1.2, ih balanced.2 later⟩
      | restore r on =>
          exact List.forall_mem_cons.mpr ⟨restores r on List.mem_cons_self, ih balanced later⟩

/-- A walk is over within this many rounds. -/
def roundBound (net : Network) (g : StackGraph) (base : Nat) : Nat :=
  2 + planTotal net g * (net.states.size *
    ((base + 1) * ∑ k ∈ Finset.range (net.rules.size + 1), (frames net).length ^ k))

/-- What is left to do: pending work, and positions that may still be entered. -/
def effort (ground : Ground) (base : Nat) (w : Walk) : Nat :=
  weight w.tasks +
    planTotal ground.net ground.graph * unentered ground.net ground.net.rules.size base w.entered

theorem effort_start (ground : Ground) (state base : Nat) :
    effort ground base (.start state base) < roundBound ground.net ground.graph base := by
  have few : unentered ground.net ground.net.rules.size base ∅ ≤ ground.net.states.size *
      ((base + 1) *
        ∑ k ∈ Finset.range (ground.net.rules.size + 1), (frames ground.net).length ^ k) :=
    length_positions ground.net ground.net.rules.size base ▸ List.countP_le_length
  have more := Nat.mul_le_mul_left (planTotal ground.net ground.graph) few
  change 1 + _ < 2 + _
  exact Nat.add_lt_add_of_lt_of_le (by decide) more

/-- A walk is over within a number of rounds that its network, its stacks and its start say: no work
is left, or a stack returns to a state that is not there. Meanwhile no stack has more calls above the
node that it stands on than rules are registered, and no other rules are marked. -/
theorem walk_bounded {ground : Ground} (registered : ground.net.RulesRegistered)
    (state base : Nat) :
    (∃ w answer, Loop.Reaches (Walk.round ground) (.start state base) w ∧
        Walk.round ground w = .done answer ∧
        ((w.tasks = [] ∧ answer = .ok w.found) ∨
          ∃ r, ground.net.state? r = none ∧ answer = .error (.missingReturn r)) ∧
        Loop.runFor (Walk.round ground) (roundBound ground.net ground.graph base)
          (.start state base) = some answer) ∧
      ∀ w, Loop.Reaches (Walk.round ground) (.start state base) w →
        (∀ task ∈ w.tasks, task.Bounded ground.net) ∧ ∀ r ∈ w.running, ground.net.HasRule r := by
  let Holds (w : Walk) : Prop :=
    Balanced ground.net ground.net.ruleNumbers base w.running w.tasks ∧ Marked ground.net w
  have callable : ∀ f ∈ frames ground.net, f.rule ∈ ground.net.ruleNumbers :=
    fun f mem => hasRule_of_frame registered mem
  have start : Holds (.start state base) := by
    refine ⟨⟨⟨Nat.zero_le _, by simp, Nat.le_refl _⟩, trivial⟩, by simp [Walk.start],
      fun r on mem => ?_⟩
    cases List.mem_singleton.mp mem
  have step : ∀ w t, Holds w → Walk.round ground w = .next t →
      Holds t ∧ effort ground base t < effort ground base w := by
    intro w t holds round
    have took := took_of_round round
    obtain ⟨balanced, less⟩ := holds.1.next ground.net.nodup_ruleNumbers callable round
    refine ⟨⟨balanced, took.marked registered holds.1 holds.2⟩, ?_⟩
    rw [ground.net.length_ruleNumbers] at less
    unfold effort
    rcases less with fewer | ⟨same, lighter⟩
    · have planned := took.weight_lt
      have entered := Nat.mul_le_mul_left (planTotal ground.net ground.graph) fewer
      rw [Nat.mul_succ] at entered
      omega
    · rw [same]
      omega
  constructor
  · obtain ⟨w, answer, reaches, last, run⟩ :=
      Loop.runFor_of_size step start (effort_start ground state base)
    refine ⟨w, answer, reaches, last, ?_, run⟩
    rcases round_done last with idle | ⟨n, s, stack, tasks, r, rest, -, -, -, -, -, dead, failed⟩
    · exact .inl idle
    · exact .inr ⟨r, dead, failed⟩
  · intro w reaches
    obtain ⟨balanced, marked⟩ :=
      reaches.invariant (fun w t holds round => (step w t holds round).1) start
    exact ⟨bounded_of_balanced balanced marked.restores, marked.running⟩

theorem leftSum_rulesRegistered : leftSum.RulesRegistered :=
  ⟨by decide, by decide⟩

/-- A walk in a network with a left-recursive rule, from the start of that rule. -/
theorem walk_bounded_leftSum :
    leftSum.RulesRegistered ∧
      ∃ answer, Loop.runFor (Walk.round { net := leftSum, graph := .empty })
        (roundBound leftSum .empty 0) (.start 0 0) = some answer := by
  obtain ⟨⟨w, answer, -, -, -, run⟩, -⟩ :=
    @walk_bounded { net := leftSum, graph := .empty } leftSum_rulesRegistered 0 0
  exact ⟨leftSum_rulesRegistered, answer, run⟩

end Lookahead

end GrammarNet
