import GrammarNet.Proofs.Encounters

/-!
Which rules are being run, at every moment of a lookahead walk.

The walk marks a rule when it calls it. The mark is taken away behind the work of the call, but also
at the end of the rule, for what goes on behind the call, and then it is put back for the work that
is left of the rule. So a mark is set and taken away by pieces of work that lie far apart, and
`Planned` follows the marks through all of the pending work. In front, they are the rules of the
calls on the stack.

The calls on a stack are calls that the walk has made: `Made` is kept where the walk calls, since
there it makes one, and where it goes on behind a call, since the calls below stay as they were.
Together, the rules being run are told by the stack of the work in front, and when no work is left
there are none (`running_told_by_calls`).
-/

namespace GrammarNet

/-- The network `resumedEntry` with a state of rule `1` in place of the entry of a mode. -/
def Network.resumedInside : Network :=
  { resumedEntry with
    states := resumedEntry.states.setIfInBounds 10
      (some { number := 10, kind := .basic, rule := 1, transitions := [⟨3, .epsilon⟩] }) }

namespace Lookahead

/-- The stack with which a state is entered or an edge followed. -/
def Task.stack? : Task → Option CallStack
  | .visit _ stack => some stack
  | .follow _ _ _ stack => some stack
  | .restore .. => none

/-- By the moment `w`, the walk has made a call with this stack: it has taken up the edge of the call
when the rule was not being run. -/
def HasCalled (ground : Ground) (n base : Nat) (w : Walk) (f : Frame) (stack : CallStack) : Prop :=
  ∃ v v' target level tasks, Loop.Reaches (Walk.round ground) (.start n base) v ∧
    v.tasks = .follow f.caller f.edge ⟨target, .call f.returnTo f.rule level⟩ stack :: tasks ∧
    f.rule ∉ v.running ∧ Walk.round ground v = .next v' ∧ Loop.Reaches (Walk.round ground) v' w

/-- By the moment `w`, the walk has made each call on the stack, with what is below it. -/
def Made (ground : Ground) (n base : Nat) (w : Walk) (stack : CallStack) : Prop :=
  ∀ f calls, f :: calls <:+ stack.calls → HasCalled ground n base w f ⟨calls, stack.base⟩

/-- At the moment `w` of a walk that starts on the node `base`, the rules being run are told by the
stack. -/
structure ToldBy (ground : Ground) (n base : Nat) (w : Walk) (stack : CallStack) : Prop where
  running_iff : ∀ r, r ∈ w.running ↔ ∃ f ∈ stack.calls, f.rule = r
  /-- No rule is called twice. -/
  once : stack.calls.Pairwise fun f g => f.rule ≠ g.rule
  made : Made ground n base w stack
  /-- The calls stand on the node where the walk began, or on one below it. -/
  below : Relation.ReflTransGen ground.graph.Calls base stack.base

variable {ground : Ground} {n base : Nat} {w w' : Walk}

/-! ### The stacks of the work -/

/-- All stacks of the work have the property. -/
def AllStacks (P : CallStack → Prop) (tasks : List Task) : Prop :=
  ∀ task ∈ tasks, ∀ stack ∈ task.stack?, P stack

section Stacks

variable {P : CallStack → Prop} {stack : CallStack}

theorem allStacks_cons {task : Task} {tasks : List Task} :
    AllStacks P (task :: tasks) ↔ (∀ stack ∈ task.stack?, P stack) ∧ AllStacks P tasks :=
  List.forall_mem_cons

theorem allStacks_edgeTasks (m : Nat) (edges : List Transition) (holds : P stack) :
    AllStacks P (edgeTasks m stack edges) := by
  intro task mem
  obtain ⟨⟨t, i⟩, -, rfl⟩ := List.mem_map.mp mem
  rintro _ ⟨⟩
  exact holds

theorem allStacks_returnTasks (leaves : ∀ r rest, stack.Pops ground.graph r rest → P rest) :
    AllStacks P (returnTasks (stack.returns ground.graph)) := by
  intro task mem
  obtain ⟨way, listed, planned⟩ := List.mem_filterMap.mp mem
  cases way with
  | ended => cases planned
  | resume r rest =>
      cases planned
      rintro _ ⟨⟩
      exact leaves r rest (CallStack.resume_mem_returns_iff.mp listed)

/-- A round plans work with the stack in front, with one more call on it, or with what is left of it
behind a rule. So a property that calls and returns keep stays one of all stacks. -/
theorem Took.allStacks (took : Took ground w w')
    (enters : ∀ m i returnTo target rule level stack tasks,
      w.tasks = .follow m i ⟨target, .call returnTo rule level⟩ stack :: tasks → rule ∉ w.running →
      P stack → P (stack.enter ⟨m, i, rule, returnTo⟩))
    (leaves : ∀ r stack rest, stack.Pops ground.graph r rest → P stack → P rest)
    (all : AllStacks P w.tasks) : AllStacks P w'.tasks := by
  have behind : ∀ {task tasks}, w.tasks = task :: tasks →
      (∀ stack ∈ task.stack?, P stack) ∧ AllStacks P tasks := by
    intro task tasks front
    rw [front] at all
    exact allStacks_cons.mp all
  cases took with
  | passed front _ =>
      obtain ⟨own, rest⟩ := behind front
      exact allStacks_cons.mpr ⟨own, rest⟩
  | @called m i returnTo t rule level stack tasks front label idle =>
      obtain ⟨own, rest⟩ := behind front
      obtain ⟨target, _⟩ := t
      subst label
      refine allStacks_cons.mpr ⟨?_, allStacks_cons.mpr ⟨nofun, rest⟩⟩
      rintro _ ⟨⟩
      exact enters m i returnTo target rule level stack tasks front idle (own stack rfl)
  | @left m s stack tasks front _ _ _ _ _ _ =>
      obtain ⟨own, rest⟩ := behind front
      refine List.forall_mem_append.mpr ⟨allStacks_returnTasks fun r rest pops => ?_, ?_⟩
      · exact leaves r stack rest pops (own stack rfl)
      · exact allStacks_cons.mpr ⟨nofun, rest⟩
  | @opened m s stack tasks front _ _ _ _ =>
      obtain ⟨own, rest⟩ := behind front
      exact List.forall_mem_append.mpr ⟨allStacks_edgeTasks m _ (own stack rfl), rest⟩
  | restored front => exact (behind front).2
  | barred front _ _ => exact (behind front).2
  | noted front _ _ => exact (behind front).2
  | consumed front _ => exact (behind front).2
  | absent front _ => exact (behind front).2
  | known front _ => exact (behind front).2
  | finished front _ _ _ => exact (behind front).2

end Stacks

/-! ### The calls on a stack were made -/

theorem made_nil (ground : Ground) (n base : Nat) (w : Walk) (node : Nat) :
    Made ground n base w ⟨[], node⟩ := by
  intro f calls above
  cases List.suffix_nil.mp above

theorem Made.enter {f : Frame} {stack : CallStack} (made : Made ground n base w stack)
    (called : HasCalled ground n base w f stack) : Made ground n base w (stack.enter f) := by
  intro g calls above
  rcases List.suffix_cons_iff.mp above with same | above
  · cases same
    exact called
  · exact made g calls above

theorem Made.of_pops {stack rest : CallStack} {r : Int} (made : Made ground n base w stack)
    (pops : stack.Pops ground.graph r rest) : Made ground n base w rest := by
  cases pops with
  | @call f calls node =>
      intro g below above
      exact made g below (above.trans (List.suffix_cons f calls))
  | @drop node caller _ _ => exact made_nil ground n base w caller

theorem Made.next {stack : CallStack} (made : Made ground n base w stack)
    (round : Walk.round ground w = .next w') : Made ground n base w' stack := by
  intro f calls above
  obtain ⟨v, v', target, level, tasks, reaches, front, idle, first, later⟩ := made f calls above
  exact ⟨v, v', target, level, tasks, reaches, front, idle, first, later.next round⟩

/-- At every moment, a walk has made all calls on the stacks of its work. -/
theorem made_of_reaches (reaches : Loop.Reaches (Walk.round ground) (.start n base) w) :
    AllStacks (Made ground n base w) w.tasks := by
  induction reaches with
  | start =>
      refine allStacks_cons.mpr ⟨?_, nofun⟩
      rintro _ ⟨⟩
      exact made_nil ground n base _ base
  | @next w w' reaches round all =>
      have before : AllStacks (Made ground n base w') w.tasks :=
        fun task mem stack here => (all task mem stack here).next round
      refine (took_of_round round).allStacks ?_ (fun _ _ _ pops made => made.of_pops pops) before
      intro m i returnTo target rule level stack tasks front idle made
      exact made.enter ⟨w, w', target, level, tasks, reaches, front, idle, round, .start⟩

/-! ### The rules being run -/

/-- In front, the rules being run agree with the stack, and its position is reached. -/
theorem Planned.front {start : Position} {running : List Int} {task : Task} {tasks : List Task}
    {stack : CallStack} (planned : Planned ground start running (task :: tasks))
    (here : stack ∈ task.stack?) :
    Agree running stack ∧ ∃ m, Reach ground start ⟨m, stack⟩ := by
  cases task with
  | visit m _ =>
      cases here
      obtain ⟨⟨agree, reach⟩, -⟩ := planned
      exact ⟨agree, m, reach⟩
  | follow m i t _ =>
      cases here
      obtain ⟨⟨agree, opened⟩, -⟩ := planned
      exact ⟨agree, m, opened.reach⟩
  | restore rule on => cases here

/-- At every moment of a walk over a rule-closed network, the rules being run are those of the calls on
the stack in front. These are calls that the walk has made, above the node where it began or one
below it, and no two of them are of one rule. When no work is left, no rule is being run. -/
theorem running_told_by_calls (closed : ground.net.RuleClosed)
    (unresumed : ground.net.NoEntryResumed)
    (reaches : Loop.Reaches (Walk.round ground) (.start n base) w) :
    (∀ task tasks stack, w.tasks = task :: tasks → stack ∈ task.stack? →
      ToldBy ground n base w stack) ∧
    (w.tasks = [] → w.running = []) := by
  have planned := planned_of_reaches (aligned_of_ruleClosed closed unresumed) reaches
  constructor
  · intro task tasks stack front here
    rw [front] at planned
    obtain ⟨agree, m, reach⟩ := planned.front here
    have mem : task ∈ w.tasks := front ▸ List.mem_cons_self
    exact
      { running_iff := fun r => (agree r).trans List.mem_map
        once := List.pairwise_map.mp (reach.nodup List.nodup_nil)
        made := made_of_reaches reaches task mem stack here
        below := reach.base_calls }
  · intro idle
    rw [idle] at planned
    exact List.eq_nil_iff_forall_not_mem.mpr planned

theorem resumedInside_after :
    (Loop.stateAfter (Walk.round { net := .resumedInside, graph := .empty }) 21
      (.start 7 StackGraph.root)).tasks.head? =
      some (.visit 5 ⟨[⟨2, 0, 2, 10⟩, ⟨8, 0, 1, 9⟩], StackGraph.root⟩) := by
  decide +kernel

/-- The same where rule `2` ends for the second time, with all the work behind the first calls still
to be done. -/
theorem running_told_by_calls_resumedInside :
    Network.resumedInside.RuleClosed ∧ Network.resumedInside.NoEntryResumed ∧
      ∃ w tasks, Loop.Reaches (Walk.round { net := .resumedInside, graph := .empty })
          (.start 7 StackGraph.root) w ∧
        w.tasks = .visit 5 ⟨[⟨2, 0, 2, 10⟩, ⟨8, 0, 1, 9⟩], StackGraph.root⟩ :: tasks ∧
        ToldBy { net := .resumedInside, graph := .empty } 7 StackGraph.root w
          ⟨[⟨2, 0, 2, 10⟩, ⟨8, 0, 1, 9⟩], StackGraph.root⟩ := by
  let ground : Ground := { net := .resumedInside, graph := .empty }
  have closed : Network.resumedInside.RuleClosed := by decide
  have unresumed : Network.resumedInside.NoEntryResumed := by decide
  have reaches := Loop.reaches_stateAfter (Walk.round ground) 21 (.start 7 StackGraph.root)
  obtain ⟨tasks, front⟩ := List.head?_eq_some_iff.mp resumedInside_after
  exact ⟨closed, unresumed, _, tasks, reaches, front,
    (running_told_by_calls closed unresumed reaches).1 _ _ _ front rfl⟩

/-! ### A rule that is taken for one being run -/

theorem resumedEntry_after :
    let w := Loop.stateAfter (Walk.round { net := .resumedEntry, graph := .empty }) 17
      (.start 7 StackGraph.root)
    w.tasks.head? = some (.visit 8 ⟨[], StackGraph.root⟩) ∧ 1 ∈ w.running := by
  decide +kernel

/-- Where a call goes on at an entry of a mode, a walk may come to a state with no call on its stack
and still take rule `1` for one being run. -/
theorem running_uncalled_behind_resumed_entry :
    Network.resumedEntry.RuleClosed ∧
      ∃ w tasks, Loop.Reaches (Walk.round { net := .resumedEntry, graph := .empty })
          (.start 7 StackGraph.root) w ∧
        w.tasks = .visit 8 ⟨[], StackGraph.root⟩ :: tasks ∧ 1 ∈ w.running := by
  have reaches := Loop.reaches_stateAfter
    (Walk.round { net := .resumedEntry, graph := .empty }) 17 (.start 7 StackGraph.root)
  obtain ⟨front, running⟩ := resumedEntry_after
  obtain ⟨tasks, front⟩ := List.head?_eq_some_iff.mp front
  exact ⟨Network.resumedEntry_ruleClosed, _, tasks, reaches, front, running⟩

end Lookahead

end GrammarNet
