import GrammarNet.Proofs.RuleEnd

/-!
A lookahead finds every symbol that can follow, unless a rule that can be empty calls itself on the
left.

A way to an edge leaves some levels of the context and is then inside of calls that are not
completed (`Inside`). When one of them is a call of a rule that is being run already, the way from
the outer call to the inner one can be left out (`Inside.shorten`). This leaves the calls that are
completed before the edge is reached. Such a call of a rule being run needs a rule that is empty and
calls itself on the left.
-/

namespace GrammarNet

open Network StackGraph

namespace Lookahead

variable {net : Network} {graph : StackGraph} {ground : Ground}

/-- No rule can both end without consuming a symbol and get to a call of itself without consuming
one. -/
def NoEmptyLeftRecursion (net : Network) : Prop :=
  ∀ rule start, net.startOf? rule = some start → ¬ (Nullable net start ∧ LeftRecursive net rule start)

/-- A way from a state to a goal that is inside of any number of calls, which are not completed. The
number is its size, and it has no call of the rules to avoid. -/
inductive Inside (net : Network) (avoid : List Int) (goal : Nat) : Nat → Nat → Prop where
  | level {k n : Nat} : Through net avoid k n goal → Inside net avoid goal k n
  | call {j k n m start follow : Nat} {rule : Int} :
      Through net avoid j n m → net.Invokes m rule start follow → rule ∉ avoid →
      Inside net avoid goal k start → Inside net avoid goal (j + k + 1) n

/-- A way through a rule is a way on which the rule can be empty. -/
theorem Through.nullable {avoid : List Int} {k start stop : Nat}
    (through : Through net avoid k start stop) (ends : net.AtStop stop) : Nullable net start :=
  ⟨stop, through.steps [] root, ends⟩

theorem Meets.leftRecursive {rule : Int} {start : Nat} (meets : Meets net rule start) :
    LeftRecursive net rule start := by
  obtain ⟨m, above, start', follow, steps, call⟩ := meets .empty [] root
  exact ⟨m, above ++ [], start', follow, steps, call⟩

/-- A way inside of calls either does not call a rule, or it is inside of a call of the rule and the
rest of it is shorter, or it completes a call of the rule. -/
theorem Inside.avoid_or {avoid : List Int} {goal k n : Nat} (rule : Int)
    (inside : Inside net avoid goal k n) :
    Inside net (rule :: avoid) goal k n ∨
      (∃ m start follow j, net.Invokes m rule start follow ∧ j < k ∧
        Inside net avoid goal j start) ∨
      (Meets net rule n ∧ ∃ m start follow j stop, net.Invokes m rule start follow ∧
        Through net avoid j start stop ∧ net.AtStop stop) := by
  induction inside with
  | level through =>
      rcases through.avoid_or rule with without | ⟨meets, m, start, follow, j, stop, call, -, rest⟩
      · exact .inl (.level without)
      · exact .inr (.inr ⟨meets, m, start, follow, j, stop, call, rest⟩)
  | @call j k n m start follow called through call free rest ih =>
      rcases through.avoid_or rule with without | ⟨meets, m', s, f, i, stop, call', -, inner⟩
      · by_cases same : called = rule
        · subst same
          exact .inr (.inl ⟨m, start, follow, k, call, by omega, rest⟩)
        · rcases ih with rest' | ⟨m', s, f, i, call', less, rest'⟩ | ⟨meets, inner⟩
          · refine .inl (.call without call ?_ rest')
            simp [same, free]
          · exact .inr (.inl ⟨m', s, f, i, call', by omega, rest'⟩)
          · exact .inr (.inr ⟨(meets.of_call call).of_through through, inner⟩)
      · exact .inr (.inr ⟨meets, m', s, f, i, stop, call', inner⟩)

/-- A way from the start of a rule can be replaced by one that does not call the rule. -/
theorem Inside.shorten (closed : net.RuleClosed) (guarded : NoEmptyLeftRecursion net)
    {avoid : List Int} {rule : Int} {start goal k : Nat} (starts : net.startOf? rule = some start)
    (inside : Inside net avoid goal k start) :
    ∃ j, j ≤ k ∧ Inside net (rule :: avoid) goal j start := by
  have same : ∀ {m start' follow}, net.Invokes m rule start' follow → start = start' :=
    fun call => Option.some.inj (starts.symm.trans (closed.startOf?_of_invokes call))
  induction k using Nat.strongRecOn with
  | ind k ih =>
      rcases inside.avoid_or rule with without | ⟨m, start', follow, j, call, less, rest⟩ |
        ⟨meets, m, start', follow, j, stop, call, inner, ends⟩
      · exact ⟨k, Nat.le_refl k, without⟩
      · obtain rfl := same call
        obtain ⟨i, le, shorter⟩ := ih j less rest
        exact ⟨i, by omega, shorter⟩
      · obtain rfl := same call
        exact absurd ⟨inner.nullable ends, meets.leftRecursive⟩ (guarded rule start starts)

/-- A walk gets to the goal of a way that calls no rule being run. -/
theorem Inside.reach (closed : ground.net.RuleClosed) (guarded : NoEmptyLeftRecursion ground.net)
    (free : Free ground) {avoid : List Int} {goal k n : Nat} {stack : CallStack}
    (inside : Inside ground.net avoid goal k n) (within : ∀ r ∈ stack.rules, r ∈ avoid) :
    ∃ stack', Reach ground ⟨n, stack⟩ ⟨goal, stack'⟩ := by
  induction k using Nat.strongRecOn generalizing avoid n stack with
  | ind k ih =>
      cases inside with
      | level through => exact ⟨stack, (through.runs closed).reach free within⟩
      | @call j k _ m start follow rule through call fresh rest =>
          have idle : rule ∉ stack.rules := fun h => fresh (within rule h)
          obtain ⟨f, rfl, -, enter⟩ := free.move_call call idle
          obtain ⟨i, le, shorter⟩ := rest.shorten closed guarded (closed.startOf?_of_invokes call)
          have within' : ∀ r ∈ (stack.enter f).rules, r ∈ f.rule :: avoid := by
            intro r hr
            rcases List.mem_cons.mp hr with rfl | hr
            · exact List.mem_cons_self
            · exact List.mem_cons_of_mem _ (within r hr)
          obtain ⟨stack', inner⟩ := ih i (by omega) shorter within'
          have before : Reach ground ⟨n, stack⟩ ⟨m, stack⟩ :=
            (through.runs closed).reach free within
          exact ⟨stack', (before.tail enter).trans inner⟩

/-- A way inside of calls of the current level leads to the goal. -/
def GoalAhead (net : Network) (goal : Nat) (c : Config) : Prop :=
  ∃ k, Inside net [] goal k c.state

theorem inherited_goalAhead {goal : Nat} : Inherited net (GoalAhead net goal) where
  through := by
    rintro k n m returns base way ⟨j, inside⟩
    cases inside with
    | level rest => exact ⟨k + j, .level (way.trans rest)⟩
    | call rest call free inside => exact ⟨_, .call (way.trans rest) call free inside⟩
  call := by
    rintro n start follow rule returns base call ⟨j, inside⟩
    exact ⟨_, .call .here call List.not_mem_nil inside⟩

/-- A walk gets to every state that steps lead to. -/
theorem reach_state (closed : ground.net.RuleClosed) (guarded : NoEmptyLeftRecursion ground.net)
    (free : Free ground) {n base : Nat} {c : Config}
    (steps : Steps ground.net ground.graph ⟨n, [], base⟩ c) :
    ∃ p, Reach ground ⟨n, [], base⟩ p ∧ p.state = c.state := by
  have ahead : GoalAhead ground.net c.state c := ⟨0, .level .here⟩
  obtain ⟨m, base', across, k, inside⟩ :=
    (unwinds_of_steps inherited_goalAhead steps ahead).reach closed free
  obtain ⟨stack, inner⟩ : ∃ stack, Reach ground ⟨m, [], base'⟩ ⟨c.state, stack⟩ :=
    inside.reach closed guarded free (by simp)
  exact ⟨⟨c.state, stack⟩, across.trans inner, rfl⟩

/-- When no rule that can be empty calls itself on the left, a lookahead finds every symbol that is
consumed in a configuration that steps reach. -/
theorem look_complete {n : Nat} {stack : Option Nat} {atEnd : Bool} (closed : net.RuleClosed)
    (unresumed : net.NoEntryResumed) (guarded : NoEmptyLeftRecursion net)
    (live : graph.ReturnsLive net (graph.resolveRef stack)) :
    ∃ found, net.look graph (some n) stack { addEndOfInput := atEnd } = .ok found ∧
      ∀ c x, Steps net graph ⟨n, [], graph.resolveRef stack⟩ c → net.Consumes c.state x →
        x ∈ found := by
  obtain ⟨found, answer, mem⟩ := look_finds closed unresumed live
  refine ⟨found, answer, fun c x steps consumes => ?_⟩
  obtain ⟨p, reach, same⟩ := reach_state closed guarded (free_clear net graph atEnd) steps
  exact (mem x).mpr ⟨p, reach, .inl (same ▸ consumes)⟩

theorem noEmptyLeftRecursion_of_rules
    (each : ∀ p ∈ net.rules.toList.zipIdx,
      ¬ (Nullable net p.1.start ∧ LeftRecursive net p.2 p.1.start)) :
    NoEmptyLeftRecursion net := by
  intro r start starts
  obtain ⟨rule, entry, rfl⟩ := Option.map_eq_some_iff.mp starts
  obtain ⟨i, rfl, mem⟩ := mem_zipIdx_of_entryAt? entry
  exact each (rule, i) mem

/-- The sum calls itself on the left, but it is not empty. -/
theorem leftSum_guarded : NoEmptyLeftRecursion leftSum := by
  have inSum : Confined leftSum [0, 4, 6, 5] := by decide
  have inCall : Confined leftSum [2, 7, 0, 4, 6, 5, 8, 3] := by decide
  apply noEmptyLeftRecursion_of_rules
  intro p mem
  obtain rfl | rfl : p = (⟨0, 1⟩, 0) ∨ p = (⟨2, 3⟩, 1) := by
    simpa [leftSum] using mem
  · exact fun both => inSum.not_nullable (by decide) (by decide) both.1
  · exact fun both => inCall.not_leftRecursive (by decide) (by decide) both.2

/-- The same in a network with a left-recursive rule, in the context of its call. -/
theorem look_complete_leftSum :
    leftSum.RuleClosed ∧ leftSum.NoEntryResumed ∧ NoEmptyLeftRecursion leftSum ∧
      callOfSum.ReturnsLive leftSum 1 ∧
      ∃ found, leftSum.look callOfSum (some 0) (some 1) { addEndOfInput := false } = .ok found ∧
        ∀ c x, Steps leftSum callOfSum ⟨0, [], 1⟩ c → leftSum.Consumes c.state x → x ∈ found :=
  ⟨leftSum_ruleClosed, leftSum_noEntryResumed, leftSum_guarded, callOfSum_live,
    look_complete leftSum_ruleClosed leftSum_noEntryResumed leftSum_guarded callOfSum_live⟩

/-! ### What a lookahead misses -/

/-- In this network no rule calls itself on the left. -/
theorem resumedEntry_guarded : NoEmptyLeftRecursion resumedEntry := by
  have in₀ : Confined resumedEntry [0, 2, 4, 5, 10, 6, 1] := by decide
  have in₁ : Confined resumedEntry [2, 4, 5, 10] := by decide
  have in₂ : Confined resumedEntry [4, 5] := by decide
  apply noEmptyLeftRecursion_of_rules
  intro p mem
  obtain rfl | rfl | rfl : p = (⟨0, 1⟩, 0) ∨ p = (⟨2, 3⟩, 1) ∨ p = (⟨4, 5⟩, 2) := by
    simpa [resumedEntry] using mem
  · exact fun both => in₀.not_leftRecursive (by decide) (by decide) both.2
  · exact fun both => in₁.not_leftRecursive (by decide) (by decide) both.2
  · exact fun both => in₂.not_leftRecursive (by decide) (by decide) both.2

/-- Rule `0` calls itself on the left, and besides its end, state `1`, it has another one, state `5`.
Only the latter is reached without consuming a symbol. -/
def secondStop : Network where
  grammar := .parser
  maxSymbol := 10
  rules := #[⟨0, 1⟩, ⟨2, 3⟩]
  states := #[
    some
      { number := 0, kind := .ruleStart, rule := 0
        transitions := [⟨0, .call 4 0 0⟩, ⟨5, .epsilon⟩] },
    some { number := 1, kind := .ruleStop, rule := 0 },
    some { number := 2, kind := .ruleStart, rule := 1, transitions := [⟨0, .call 3 0 0⟩] },
    some { number := 3, kind := .ruleStop, rule := 1 },
    some { number := 4, kind := .basic, rule := 0, transitions := [⟨1, .atom 5⟩] },
    some { number := 5, kind := .ruleStop, rule := 0, transitions := [⟨5, .atom 8⟩] }]

theorem secondStop_steps :
    Steps secondStop .empty ⟨2, [], root⟩ ⟨5, [4, 3], root⟩ ∧
      Steps secondStop .empty ⟨2, [], root⟩ ⟨4, [3], root⟩ := by
  have call₂ : secondStop.Invokes 2 0 0 3 := ⟨_, _, _, rfl, by decide, .head _, rfl, rfl⟩
  have call₀ : secondStop.Invokes 0 0 0 4 := ⟨_, _, _, rfl, by decide, .head _, rfl, rfl⟩
  have pass₀ : secondStop.Silent 0 5 := ⟨_, _, rfl, by decide, .tail _ (.head _), rfl, rfl⟩
  have end₅ : secondStop.AtStop 5 := ⟨_, rfl, rfl⟩
  have inner : Steps secondStop .empty ⟨2, [], root⟩ ⟨5, [4, 3], root⟩ :=
    .head (.call call₂) (.head (.call call₀) (.single (.silent pass₀)))
  exact ⟨inner, inner.tail (.back end₅)⟩

/-- A symbol is missed where a call goes on at an entry of a mode, where a rule gets to another end
than its registered one, and at an end of a rule that has an edge. -/
theorem look_incomplete :
    (resumedEntry.RuleClosed ∧ NoEmptyLeftRecursion resumedEntry ∧
      (∃ c, Steps resumedEntry .empty ⟨7, [], root⟩ c ∧ resumedEntry.Consumes c.state 7) ∧
      resumedEntry.look .empty (some 7) none {} = .ok ∅) ∧
    (secondStop.RuleClosed ∧ secondStop.NoEntryResumed ∧
      (∀ r rule, entryAt? secondStop.rules r = some rule →
        ¬ (Steps secondStop .empty ⟨rule.start, [], root⟩ ⟨rule.stop, [], root⟩ ∧
          LeftRecursive secondStop r rule.start)) ∧
      (∃ c, Steps secondStop .empty ⟨2, [], root⟩ c ∧ secondStop.Consumes c.state 5) ∧
      (∃ c s, Steps secondStop .empty ⟨2, [], root⟩ c ∧ secondStop.get? c.state = some s ∧
        ∃ t ∈ s.transitions, t.label.accepts Symbol.firstUser secondStop.maxSymbol 8 = true) ∧
      ∃ found, secondStop.look .empty (some 2) none {} = .ok found ∧ 5 ∉ found ∧ 8 ∉ found) := by
  obtain ⟨k, way⟩ := resumedEntry_through
  obtain ⟨inner, outer⟩ := secondStop_steps
  have in₀ : Confined secondStop [0, 4, 5] := by decide
  have in₁ : Confined secondStop [0, 2, 3, 4, 5] := by decide
  refine ⟨⟨resumedEntry_ruleClosed, resumedEntry_guarded, ?_, look_resumedEntry⟩, by decide,
    by decide, ?_, ?_, ?_, .addSymbol ∅ Symbol.epsilon, ?_, by decide, by decide⟩
  · exact ⟨_, way.steps [] root, _, _, rfl, by decide, .head _, by decide⟩
  · intro r rule entry both
    obtain ⟨i, rfl, mem⟩ := mem_zipIdx_of_entryAt? entry
    obtain ⟨rfl, rfl⟩ | ⟨rfl, rfl⟩ : (rule = ⟨0, 1⟩ ∧ i = 0) ∨ (rule = ⟨2, 3⟩ ∧ i = 1) := by
      simpa [secondStop] using mem
    · exact absurd (in₀.steps (by decide) both.1).2.1 (by decide)
    · exact in₁.not_leftRecursive (by decide) (by decide) both.2
  · exact ⟨_, outer, _, _, rfl, by decide, .head _, by decide⟩
  · exact ⟨_, _, inner, rfl, _, .head _, by decide⟩
  · exact Loop.run_eq_of_runFor (n := 40) rfl _

end Lookahead

end GrammarNet
