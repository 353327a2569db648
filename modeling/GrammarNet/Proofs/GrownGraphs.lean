import GrammarNet.Lookahead.Query
import GrammarNet.Proofs.Interning
import GrammarNet.Proofs.Rounds

/-!
A lookahead does not depend on nodes that are made later.

A walk stands on the node it was started with, on callers of that node, and so on, all of which are
older than the node. Nodes keep their entries when a graph grows. So each round of a walk is the
same over the graph and over one that it has grown to, as long as the stacks of the pending work
stand on nodes of the graph (`Task.Within`), and each round keeps that.
-/

namespace GrammarNet

open StackGraph

variable {g h : StackGraph}

namespace CallStack

theorem returns_grow (grows : g.Grows h) {stack : CallStack} (within : stack.base ≤ g.nodes.size) :
    stack.returns h = stack.returns g := by
  obtain ⟨calls, base⟩ := stack
  cases calls with
  | nil => rw [returns, returns, grows.entries base within]
  | cons frame calls => rfl

/-- What is left of a stack stands on no newer node. -/
theorem Pops.base_le {stack rest : CallStack} {r : Int} (pops : Pops g stack r rest) :
    rest.base ≤ stack.base := by
  cases pops with
  | call => exact Nat.le_refl _
  | drop entry => exact Nat.le_of_lt (caller_lt entry rfl)

end CallStack

namespace Lookahead

/-- The stack of the piece of work stands on a node of the graph. -/
def Task.Within (g : StackGraph) : Task → Prop
  | visit _ stack | follow _ _ _ stack => stack.base ≤ g.nodes.size
  | restore .. => True

theorem within_edgeTasks {n : Nat} {stack : CallStack} {edges : List Transition}
    (within : stack.base ≤ g.nodes.size) : ∀ task ∈ edgeTasks n stack edges, task.Within g := by
  intro task mem
  obtain ⟨edge, -, rfl⟩ := List.mem_map.mp mem
  exact within

theorem within_returnTasks {stack : CallStack} (within : stack.base ≤ g.nodes.size) :
    ∀ task ∈ returnTasks (stack.returns g), task.Within g := by
  intro task mem
  obtain ⟨way, mem', made⟩ := List.mem_filterMap.mp mem
  cases way with
  | ended => cases made
  | resume r rest =>
      cases made
      exact Nat.le_trans (CallStack.resume_mem_returns_iff.mp mem').base_le within

/-- A round makes no work with a stack on another node. -/
theorem Took.within {ground : Ground} {w w' : Walk} (took : Took ground w w')
    (within : ∀ task ∈ w.tasks, task.Within ground.graph) :
    ∀ task ∈ w'.tasks, task.Within ground.graph := by
  cases took with
  | restored front =>
      rw [front, List.forall_mem_cons] at within
      exact within.2
  | passed front =>
      rw [front, List.forall_mem_cons] at within
      exact List.forall_mem_cons.mpr ⟨within.1, within.2⟩
  | barred front | noted front | consumed front | absent front | known front | finished front =>
      rw [front, List.forall_mem_cons] at within
      exact within.2
  | called front =>
      rw [front, List.forall_mem_cons] at within
      exact List.forall_mem_cons.mpr ⟨within.1, List.forall_mem_cons.mpr ⟨trivial, within.2⟩⟩
  | left front =>
      rw [front, List.forall_mem_cons] at within
      rw [List.forall_mem_append, List.forall_mem_cons]
      exact ⟨within_returnTasks within.1, trivial, within.2⟩
  | opened front =>
      rw [front, List.forall_mem_cons] at within
      exact List.forall_mem_append.mpr ⟨within_edgeTasks within.1, within.2⟩

variable {net : Network} {stop : Option Nat} {options : LookaheadOptions}

/-- A round over a graph is the same round over one that it has grown to. -/
theorem round_grow (grows : g.Grows h) {w : Walk} (within : ∀ task ∈ w.tasks, task.Within g) :
    Walk.round { net, graph := h, stop, options } w =
      Walk.round { net, graph := g, stop, options } w := by
  obtain ⟨tasks, entered, running, found⟩ := w
  cases tasks with
  | nil => rfl
  | cons task tasks =>
      cases task with
      | restore rule on => rfl
      | follow n i edge stack => rfl
      | visit n stack =>
          have returns : stack.returns h = stack.returns g :=
            CallStack.returns_grow grows (within (.visit n stack) List.mem_cons_self)
          simp only [Walk.round, Walk.enter, Walk.leave, returns]

/-- A walk over a graph finds the same over one that it has grown to. -/
theorem walk_grow (grows : g.Grows h) {n base : Nat} (within : base ≤ g.nodes.size) :
    walk { net, graph := h, stop, options } n base =
      walk { net, graph := g, stop, options } n base := by
  refine Loop.run_congr (fun w : Walk => ∀ task ∈ w.tasks, task.Within g)
    (fun w w' within round => (took_of_round round).within within)
    (fun w within => round_grow grows within) _ _ fun task mem => ?_
  obtain rfl := List.mem_singleton.mp mem
  exact within

end Lookahead

/-- What can follow a state with the stacks of a node stays the same while the graph grows. -/
theorem Network.look_grow {net : Network} {stop : Option Nat} {options : LookaheadOptions}
    (grows : g.Grows h) {state stack : Option Nat} (names : g.Names stack) :
    net.look h state stack options stop = net.look g state stack options stop := by
  cases state with
  | none => rfl
  | some n =>
      rw [look, look, names.resolveRef_eq grows]
      exact Lookahead.walk_grow grows (g.resolve_le _)

end GrammarNet
