import GrammarNet.Proofs.Shortening

/-!
A lookahead finds only symbols that can follow, and it finds the end of the outermost rule whenever
this end can be reached, however the rules call each other.

The walk does not call a rule that is being run. A way to the end of the outermost rule completes
all its calls, so a call inside of a call of the same rule can be taken out of it
(`Through.shorten`), and what is left is a way that the walk goes.
-/

namespace GrammarNet

open Network StackGraph

namespace Lookahead

variable {net : Network} {graph : StackGraph} {ground : Ground}

/-- A way leads to the end of the outermost rule without leaving a level of the context. -/
def EndsAhead (net : Network) (graph : StackGraph) (c : Config) : Prop :=
  ∃ k stop, Through net [] k c.state stop ∧ EndsAt net graph ⟨stop, c.returns, c.base⟩

theorem inherited_endsAhead : Inherited net (EndsAhead net graph) where
  through := by
    rintro k n m returns base way ⟨j, stop, rest, ends⟩
    exact ⟨k + j, stop, way.trans rest, ends⟩
  call := by
    rintro n start follow rule returns base call ⟨j, stop, rest, -, none, -⟩
    cases none

/-- A walk reaches the end of the outermost rule whenever steps reach it. -/
theorem reach_end (closed : ground.net.RuleClosed) (free : Free ground) {n base : Nat} {c : Config}
    (steps : Steps ground.net ground.graph ⟨n, [], base⟩ c)
    (ends : EndsAt ground.net ground.graph c) :
    ∃ p, Reach ground ⟨n, [], base⟩ p ∧ EndsAt ground.net ground.graph p.config := by
  have ahead : EndsAhead ground.net ground.graph c := ⟨0, c.state, .here, ends⟩
  obtain ⟨m, base', reach, k, stop, way, ends'⟩ :=
    (unwinds_of_steps inherited_endsAhead steps ahead).reach closed free
  have across : Reach ground ⟨m, [], base'⟩ ⟨stop, [], base'⟩ :=
    (way.runs closed).reach free (by simp)
  exact ⟨⟨stop, [], base'⟩, reach.trans across, ends'⟩

/-- Every symbol that a lookahead finds is consumed in a configuration that steps reach, or it marks
the end of the outermost rule and steps reach this end. Whenever steps reach the end of the
outermost rule, the lookahead has the mark for it. -/
theorem look_sound_end_exact {n : Nat} {stack : Option Nat} {atEnd : Bool}
    (closed : net.RuleClosed) (unresumed : net.NoEntryResumed)
    (live : graph.ReturnsLive net (graph.resolveRef stack)) :
    ∃ found, net.look graph (some n) stack { addEndOfInput := atEnd } = .ok found ∧
      (∀ x ∈ found, ∃ c, Steps net graph ⟨n, [], graph.resolveRef stack⟩ c ∧
        (net.Consumes c.state x ∨
          x = LookaheadOptions.boundary { addEndOfInput := atEnd } ∧ EndsAt net graph c)) ∧
      ((∃ c, Steps net graph ⟨n, [], graph.resolveRef stack⟩ c ∧ EndsAt net graph c) →
        LookaheadOptions.boundary { addEndOfInput := atEnd } ∈ found) := by
  obtain ⟨found, answer, mem⟩ := look_finds closed unresumed live
  refine ⟨found, answer, fun x hx => ?_, ?_⟩
  · obtain ⟨p, reach, shown⟩ := (mem x).mp hx
    exact ⟨p.config, Reach.steps reach, shown⟩
  · rintro ⟨c, steps, ends⟩
    obtain ⟨p, reach, ends'⟩ := reach_end closed (free_clear net graph atEnd) steps ends
    exact (mem _).mpr ⟨p, reach, .inr ⟨rfl, ends'⟩⟩

/-- The same in a network with a left-recursive rule, in the context of its call. -/
theorem look_sound_end_exact_leftSum :
    leftSum.RuleClosed ∧ leftSum.NoEntryResumed ∧ callOfSum.ReturnsLive leftSum 1 ∧
      ∃ found, leftSum.look callOfSum (some 0) (some 1) { addEndOfInput := true } = .ok found ∧
        (∀ x ∈ found, ∃ c, Steps leftSum callOfSum ⟨0, [], 1⟩ c ∧
          (leftSum.Consumes c.state x ∨ x = Symbol.endOfInput ∧ EndsAt leftSum callOfSum c)) ∧
        ((∃ c, Steps leftSum callOfSum ⟨0, [], 1⟩ c ∧ EndsAt leftSum callOfSum c) →
          Symbol.endOfInput ∈ found) :=
  ⟨leftSum_ruleClosed, leftSum_noEntryResumed, callOfSum_live,
    look_sound_end_exact leftSum_ruleClosed leftSum_noEntryResumed callOfSum_live⟩

/-! ### A call that goes on at an entry of a mode -/

theorem resumedEntry_through : ∃ k, Through resumedEntry [] k 7 9 := by
  have call₀ : resumedEntry.Invokes 0 1 2 6 :=
    ⟨_, _, _, rfl, by decide, List.mem_cons_self, rfl, rfl⟩
  have call₂ : resumedEntry.Invokes 2 2 4 10 :=
    ⟨_, _, _, rfl, by decide, List.mem_cons_self, rfl, rfl⟩
  have call₇ : resumedEntry.Invokes 7 0 0 8 :=
    ⟨_, _, _, rfl, by decide, List.mem_cons_self, rfl, rfl⟩
  have call₈ : resumedEntry.Invokes 8 1 2 9 :=
    ⟨_, _, _, rfl, by decide, List.mem_cons_self, rfl, rfl⟩
  have pass₄ : resumedEntry.Silent 4 5 := ⟨_, _, rfl, by decide, List.mem_cons_self, rfl, rfl⟩
  have pass₆ : resumedEntry.Silent 6 1 := ⟨_, _, rfl, by decide, List.mem_cons_self, rfl, rfl⟩
  have pass₁₀ : resumedEntry.Silent 10 4 :=
    ⟨_, _, rfl, by decide, List.mem_cons_self, rfl, rfl⟩
  have end₁ : resumedEntry.AtStop 1 := ⟨_, rfl, rfl⟩
  have end₅ : resumedEntry.AtStop 5 := ⟨_, rfl, rfl⟩
  obtain ⟨j, rule₁⟩ : ∃ k, Through resumedEntry [] k 2 5 :=
    ⟨_, .call call₂ List.not_mem_nil (.silent pass₄ .here) end₅
      (.silent pass₁₀ (.silent pass₄ .here))⟩
  obtain ⟨k, rule₀⟩ : ∃ k, Through resumedEntry [] k 0 1 :=
    ⟨_, .call call₀ List.not_mem_nil rule₁ end₅ (.silent pass₆ .here)⟩
  exact ⟨_, .call call₇ List.not_mem_nil rule₀ end₁
    (.call call₈ List.not_mem_nil rule₁ end₅ .here)⟩

theorem resumedEntry_silent : resumedEntry.Silent 9 1 :=
  ⟨_, ⟨1, .epsilon⟩, rfl, by decide, by decide, rfl, rfl⟩

theorem look_resumedEntry : resumedEntry.look .empty (some 7) none {} = .ok ∅ :=
  Loop.run_eq_of_runFor (n := 40) rfl _

/-- Where a call goes on at an entry of a mode, the end of the outermost rule may be missed. -/
theorem end_missed_behind_resumed_entry :
    resumedEntry.RuleClosed ∧ StackGraph.empty.ReturnsLive resumedEntry StackGraph.root ∧
      (∃ c, Steps resumedEntry .empty ⟨7, [], StackGraph.root⟩ c ∧
        EndsAt resumedEntry .empty c) ∧
      resumedEntry.look .empty (some 7) none {} = .ok ∅ := by
  obtain ⟨k, way⟩ := resumedEntry_through
  refine ⟨resumedEntry_ruleClosed, StackGraph.returnsLive_root _ _, ?_, look_resumedEntry⟩
  exact ⟨⟨1, [], StackGraph.root⟩, (way.steps [] StackGraph.root).tail (.silent resumedEntry_silent),
    ⟨_, rfl, rfl⟩, rfl, List.mem_cons_self⟩

end Lookahead

end GrammarNet
