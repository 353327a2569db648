import GrammarNet.Proofs.Positions

/-!
What one round of a lookahead walk does.

`Took` lists the rounds: each constructor is one thing a walk does with the piece of work in front,
with the checks it makes and all that it changes. `took_of_round` says that there is nothing else,
so whatever a walk preserves is shown by cases on `Took`, without opening the walk again.
`round_done` says when a walk is over and why it fails.
-/

namespace GrammarNet

namespace Lookahead

/-- One round of a walk. -/
inductive Took (ground : Ground) (w : Walk) : Walk → Prop where
  | restored {rule : Int} {on : Bool} {tasks : List Task} :
      w.tasks = .restore rule on :: tasks →
      Took ground w { w with tasks, running := setRunning w.running rule on }
  | passed {n i : Nat} {t : Transition} {stack : CallStack} {tasks : List Task} :
      w.tasks = .follow n i t stack :: tasks → ground.options.passes t.label = true →
      Took ground w { w with tasks := .visit t.target stack :: tasks }
  | called {n i returnTo : Nat} {t : Transition} {rule precedence : Int} {stack : CallStack}
      {tasks : List Task} :
      w.tasks = .follow n i t stack :: tasks → t.label = .call returnTo rule precedence →
      rule ∉ w.running →
      Took ground w
        { w with
          tasks :=
            .visit t.target (stack.enter ⟨n, i, rule, returnTo⟩) :: .restore rule false :: tasks
          running := setRunning w.running rule true }
  | barred {n i returnTo : Nat} {t : Transition} {rule precedence : Int} {stack : CallStack}
      {tasks : List Task} :
      w.tasks = .follow n i t stack :: tasks → t.label = .call returnTo rule precedence →
      rule ∈ w.running → Took ground w { w with tasks }
  | noted {n i : Nat} {t : Transition} {stack : CallStack} {tasks : List Task} :
      w.tasks = .follow n i t stack :: tasks → t.label.isPredicate = true →
      ground.options.seeThroughPredicates = false →
      Took ground w { w with tasks, found := w.found.addSymbol Symbol.invalid }
  | consumed {n i : Nat} {t : Transition} {stack : CallStack} {tasks : List Task} :
      w.tasks = .follow n i t stack :: tasks → t.label.isEpsilon = false →
      Took ground w
        { w with tasks, found := w.found ∪ Lookahead.consumed ground.net.maxSymbol t.label }
  | absent {n : Nat} {stack : CallStack} {tasks : List Task} :
      w.tasks = .visit n stack :: tasks → ground.net.get? n = none → Took ground w { w with tasks }
  | known {n : Nat} {stack : CallStack} {tasks : List Task} :
      w.tasks = .visit n stack :: tasks → w.entered.contains (stack.key n) = true →
      Took ground w { w with tasks }
  | finished {n : Nat} {s : State} {stack : CallStack} {tasks : List Task} :
      w.tasks = .visit n stack :: tasks → ground.net.get? n = some s →
      ground.Halts n stack ∨ (s.kind = .ruleStop ∧ stack.isEmpty = true) →
      ¬ w.entered.contains (stack.key n) = true →
      Took ground w
        { w with
          tasks
          entered := w.entered.insert (stack.key n)
          found := w.found.addSymbol ground.options.boundary }
  | left {n : Nat} {s : State} {stack : CallStack} {tasks : List Task} :
      w.tasks = .visit n stack :: tasks → ground.net.get? n = some s → s.kind = .ruleStop →
      ¬ ground.Halts n stack → ¬ stack.isEmpty = true →
      ¬ w.entered.contains (stack.key n) = true →
      missingReturn? ground.net (stack.returns ground.graph) = none →
      Took ground w
        { tasks :=
            returnTasks (stack.returns ground.graph) ++
              .restore s.rule (w.running.contains s.rule) :: tasks
          entered := w.entered.insert (stack.key n)
          running := setRunning w.running s.rule false
          found :=
            if (stack.returns ground.graph).contains .ended then
              w.found.addSymbol ground.options.boundary
            else w.found }
  | opened {n : Nat} {s : State} {stack : CallStack} {tasks : List Task} :
      w.tasks = .visit n stack :: tasks → ground.net.get? n = some s → s.kind ≠ .ruleStop →
      ¬ ground.Halts n stack → ¬ w.entered.contains (stack.key n) = true →
      Took ground w
        { w with
          tasks := edgeTasks n stack s.transitions ++ tasks
          entered := w.entered.insert (stack.key n) }

variable {ground : Ground} {w : Walk}

theorem took_of_followEdge {n i : Nat} {t : Transition} {stack : CallStack} {tasks : List Task}
    (front : w.tasks = .follow n i t stack :: tasks) :
    Took ground w (Walk.followEdge { w with tasks } ground n i t stack) := by
  obtain ⟨target, label⟩ := t
  have predicate : label.isPredicate = true →
      Took ground w
        (if ground.options.seeThroughPredicates then
          Walk.plan { w with tasks } [.visit target stack]
        else Walk.record { w with tasks } Symbol.invalid) := by
    intro asks
    split
    · next see =>
        refine .passed front ?_
        cases label <;> simp_all [LookaheadOptions.passes, Label.isSilent, Label.isPredicate]
    · next see => exact .noted front asks (by simpa using see)
  cases label with
  | call returnTo rule precedence =>
      unfold Walk.followEdge
      simp only
      split
      · next h => exact .barred front rfl (List.contains_iff_mem.mp h)
      · next h => exact .called front rfl fun mem => h (List.contains_iff_mem.mpr mem)
  | predicate rule index ctx => exact predicate rfl
  | precedence level => exact predicate rfl
  | epsilon => exact .passed front rfl
  | action rule index ctx => exact .passed front rfl
  | atom x => exact .consumed front rfl
  | range lo hi => exact .consumed front rfl
  | set s => exact .consumed front rfl
  | notSet s => exact .consumed front rfl
  | wildcard => exact .consumed front rfl

theorem took_of_enter {n : Nat} {s : State} {stack : CallStack} {tasks : List Task} {w' : Walk}
    (front : w.tasks = .visit n stack :: tasks) (hs : ground.net.get? n = some s)
    (fresh : ¬ w.entered.contains (stack.key n) = true)
    (h : Walk.enter { w with tasks, entered := w.entered.insert (stack.key n) } ground n s stack =
      .ok w') : Took ground w w' := by
  unfold Walk.enter at h
  split at h
  · next halts =>
      cases h
      exact .finished front hs (.inl halts) fresh
  · next halts =>
      split at h
      · next kind =>
          split at h
          · next empty =>
              cases h
              exact .finished front hs (.inr ⟨kind, empty⟩) fresh
          · next inner =>
              unfold Walk.leave at h
              simp only at h
              split at h
              · cases h
              · next live =>
                  cases h
                  have left := Took.left front hs kind halts inner fresh live
                  split <;> simp_all [Walk.plan, Walk.record]
      · next kind =>
          cases h
          exact .opened front hs kind halts fresh

/-- A round is one of those listed. -/
theorem took_of_round {w' : Walk} (h : Walk.round ground w = .next w') : Took ground w w' := by
  unfold Walk.round at h
  split at h
  · cases h
  · next front =>
      cases h
      exact .restored front
  · next front =>
      cases h
      exact took_of_followEdge front
  · next n stack tasks front =>
      split at h
      · next dead =>
          cases h
          exact .absent front dead
      · next s hs =>
          split at h
          · next seen =>
              cases h
              exact .known front seen
          · next fresh =>
              simp only at h
              split at h
              · cases h
              · next hw =>
                  cases h
                  exact took_of_enter front hs fresh hw

/-- A missing return state is one of the return states. -/
theorem mem_of_missingReturn? {net : Network} {returns : List CallStack.Return} {r : Int}
    (h : missingReturn? net returns = some r) :
    ∃ rest, .resume r rest ∈ returns ∧ net.state? r = none := by
  unfold missingReturn? at h
  obtain ⟨way, mem, h⟩ := List.exists_of_findSome?_eq_some h
  cases way with
  | ended => cases h
  | resume r' rest =>
      simp only at h
      split at h
      · cases h
      · next dead =>
          cases h
          exact ⟨rest, List.mem_reverse.mp mem, by simpa using dead⟩

/-- When no return state is missing, all of them are in the network. -/
theorem state?_isSome_of_missingReturn? {net : Network} {returns : List CallStack.Return} {r : Int}
    {rest : CallStack} (none : missingReturn? net returns = none) (mem : .resume r rest ∈ returns) :
    (net.state? r).isSome = true := by
  have here := List.findSome?_eq_none_iff.mp none (.resume r rest) (List.mem_reverse.mpr mem)
  exact Option.isSome_iff_ne_none.mpr (by simpa using here)

/-- Entering a position fails only at the end of a rule. -/
theorem missing_of_enter {n : Nat} {s : State} {stack : CallStack} {e : LookaheadError}
    (h : w.enter ground n s stack = .error e) :
    s.kind = .ruleStop ∧ ∃ r, missingReturn? ground.net (stack.returns ground.graph) = some r ∧
      e = .missingReturn r := by
  unfold Walk.enter at h
  split at h
  · cases h
  · split at h
    · next kind =>
        split at h
        · cases h
        · unfold Walk.leave at h
          simp only at h
          split at h
          · next r missing =>
              cases h
              exact ⟨kind, r, missing, rfl⟩
          · cases h
    · cases h

/-- A walk is over when no work is left, or when a stack returns to a state that is not there. -/
theorem round_done {answer : Except LookaheadError SymbolSet}
    (h : Walk.round ground w = .done answer) :
    (w.tasks = [] ∧ answer = .ok w.found) ∨
      ∃ n s stack tasks r rest, w.tasks = .visit n stack :: tasks ∧
        ground.net.get? n = some s ∧ s.kind = .ruleStop ∧
        ¬ w.entered.contains (stack.key n) = true ∧
        .resume r rest ∈ stack.returns ground.graph ∧ ground.net.state? r = none ∧
        answer = .error (.missingReturn r) := by
  unfold Walk.round at h
  split at h
  · next front =>
      cases h
      exact .inl ⟨front, rfl⟩
  · cases h
  · cases h
  · next n stack tasks front =>
      split at h
      · cases h
      · next s hs =>
          split at h
          · cases h
          · next fresh =>
              simp only at h
              split at h
              · next e he =>
                  cases h
                  obtain ⟨kind, r, missing, rfl⟩ := missing_of_enter he
                  obtain ⟨rest, mem, dead⟩ := mem_of_missingReturn? missing
                  exact .inr ⟨n, s, stack, tasks, r, rest, front, hs, kind, fresh, mem, dead, rfl⟩
              · cases h

end Lookahead

end GrammarNet
