import GrammarNet.Proofs.ContextLaws
import GrammarNet.Proofs.LevelWalks

/-!
A lookahead depends on its context through the stacks of the context alone.

What is recorded above a node is recorded along one of its stacks, so it is the same for nodes with
the same stacks, and for a merged node it is what the two nodes give (`look_of_stacks`). Where a call
goes on at an entry of a mode, this fails: what a walk finds along one stack then depends on the
stacks it went along before (`look_differs_behind_resumed_entry`).
-/

namespace GrammarNet

open Network StackGraph ContextStore

namespace StackGraph

variable {g : StackGraph} {net : Network} {n : Nat}

/-- The return states of a node and of the nodes below it are those on its stacks. -/
theorem returnsLive_iff : g.ReturnsLive net n ↔
    ∀ stack, g.HasStack n stack → ∀ r ∈ stack, net.state? r ≠ none := by
  constructor
  · intro live stack has
    induction has with
    | ended _ => simp
    | @call n c r stack mem has ih =>
        have below : g.ReturnsLive net c := fun m path => live m (.head ⟨r, mem⟩ path)
        exact List.forall_mem_cons.mpr ⟨live n .refl r c mem, ih below⟩
  · intro live
    induction n using Nat.strongRecOn with
    | ind n ih =>
        apply returnsLive_of_entries
        intro r c mem
        obtain ⟨stack, has⟩ := g.exists_hasStack c
        refine ⟨live _ (.call mem has) r List.mem_cons_self, ih c (caller_lt mem rfl) ?_⟩
        intro stack has s inside
        exact live _ (.call mem has) s (List.mem_cons_of_mem r inside)

end StackGraph

namespace Lookahead

variable {net : Network}

/-- A lookahead has an answer: what is recorded along the stacks of its context. -/
theorem look_along {s : ContextStore} {a : Option Nat} (closed : net.RuleClosed)
    (unresumed : net.NoEntryResumed) (live : s.graph.ReturnsLive net (s.graph.resolveRef a))
    (n : Nat) (options : LookaheadOptions) :
    ∃ found, net.look s.graph (some n) a options = .ok found ∧
      ∀ x, x ∈ found ↔ ∃ stack, s.StandsFor a stack ∧ Along net options x n stack := by
  have spec : Answers (.onward net s.graph options) ⟨n, [], s.graph.resolveRef a⟩
      (net.look s.graph (some n) a options) := look_spec closed unresumed live
  obtain ⟨found, answer, mem⟩ := spec
  exact ⟨found, answer, fun x => (mem x).trans records_iff_along⟩

/-- A context whose stacks are those of contexts that return to live states does so, too. -/
theorem returnsLive_of_stacks {s t : ContextStore} {a b c : Option Nat}
    (liveA : s.graph.ReturnsLive net (s.graph.resolveRef a))
    (liveB : s.graph.ReturnsLive net (s.graph.resolveRef b))
    (within : ∀ stack, t.StandsFor c stack → s.StandsFor a stack ∨ s.StandsFor b stack) :
    t.graph.ReturnsLive net (t.graph.resolveRef c) := by
  refine returnsLive_iff.mpr fun stack has => ?_
  rcases within stack has with has | has
  · exact returnsLive_iff.mp liveA stack has
  · exact returnsLive_iff.mp liveB stack has

/-- A lookahead above a merged node gives what it gives above the two nodes. It gives the same above
nodes with the same stacks, such as a node and its canonical node. -/
theorem look_of_stacks (closed : net.RuleClosed) (unresumed : net.NoEntryResumed)
    (before : List ContextOp) {a b : Option Nat}
    (liveA : (reached before).graph.ReturnsLive net ((reached before).graph.resolveRef a))
    (liveB : (reached before).graph.ReturnsLive net ((reached before).graph.resolveRef b))
    (n : Nat) (options : LookaheadOptions) (memo : Option Nat) (table : Nat) (map : Option Nat) :
    ∃ A B m t c u, net.look (reached before).graph (some n) a options = .ok A ∧
      net.look (reached before).graph (some n) b options = .ok B ∧
      (reached before).merge memo a b = .ok (m, t) ∧
      net.look t.graph (some n) (some m) options = .ok (A ∪ B) ∧
      ((∀ stack, (reached before).StandsFor a stack ↔ (reached before).StandsFor b stack) →
        A = B) ∧
      (reached before).canonical table map a = .ok (c, u) ∧
      net.look u.graph (some n) (some c) options = .ok A := by
  obtain ⟨A, answerA, memA⟩ := look_along closed unresumed liveA n options
  obtain ⟨B, answerB, memB⟩ := look_along closed unresumed liveB n options
  obtain ⟨m, t, merged, -, joined⟩ := (reached_sound before).merge memo a b
  obtain ⟨c, u, canonical, denotes⟩ := (reached_sound before).canonical_standsFor table map a
  have union := standsFor_of_joined joined
  have liveM : t.graph.ReturnsLive net (t.graph.resolveRef (some m)) :=
    returnsLive_of_stacks liveA liveB fun stack => (union stack).mp
  have liveC : u.graph.ReturnsLive net (u.graph.resolveRef (some c)) :=
    returnsLive_of_stacks liveA liveA fun stack has => .inl ((denotes stack).mp has)
  obtain ⟨M, answerM, memM⟩ := look_along closed unresumed liveM n options
  obtain ⟨C, answerC, memC⟩ := look_along closed unresumed liveC n options
  have both : M = A ∪ B := by
    ext x
    simp only [SymbolSet.mem_union, memM, memA, memB, union, or_and_right, exists_or]
  have same : C = A := by
    ext x
    simp only [memC, memA, denotes]
  refine ⟨A, B, m, t, c, u, answerA, answerB, merged, both ▸ answerM, fun equal => ?_, canonical,
    same ▸ answerC⟩
  ext x
  simp only [memA, memB, equal]

/-- A run that makes the call of the sum in `Network.leftSum`. -/
def sumCalled : List ContextOp :=
  [.single none ⟨8, by decide⟩]

/-- The same in a network with a left-recursive rule, for the call of the rule and the empty
stack. -/
theorem look_of_stacks_leftSum :
    leftSum.RuleClosed ∧ leftSum.NoEntryResumed ∧
      ∃ A B m t c u, leftSum.look (reached sumCalled).graph (some 0) (some 1) {} = .ok A ∧
        leftSum.look (reached sumCalled).graph (some 0) none {} = .ok B ∧
        (reached sumCalled).merge none (some 1) none = .ok (m, t) ∧
        leftSum.look t.graph (some 0) (some m) {} = .ok (A ∪ B) ∧
        (reached sumCalled).canonical 0 none (some 1) = .ok (c, u) ∧
        leftSum.look u.graph (some 0) (some c) {} = .ok A := by
  have liveA : (reached sumCalled).graph.ReturnsLive leftSum
      ((reached sumCalled).graph.resolveRef (some 1)) := callOfSum_live
  have liveB : (reached sumCalled).graph.ReturnsLive leftSum
      ((reached sumCalled).graph.resolveRef none) := returnsLive_root _ _
  obtain ⟨A, B, m, t, c, u, answerA, answerB, merged, answerM, -, canonical, answerC⟩ :=
    look_of_stacks leftSum_ruleClosed leftSum_noEntryResumed sumCalled liveA liveB 0 {} none 0 none
  exact ⟨leftSum_ruleClosed, leftSum_noEntryResumed, A, B, m, t, c, u, answerA, answerB, merged,
    answerM, canonical, answerC⟩

/-! ### Where sharing can be seen -/

/-- A run that makes the same two calls twice, nodes `2` and `4`. Nodes `5` and `6` return to states
`0` and `6` of rule `0`: node `5` above both copies, node `6` above the first one alone. -/
def callsCopied : List ContextOp :=
  [.single none ⟨6, by decide⟩, .single (some 1) ⟨8, by decide⟩,
    .single none ⟨6, by decide⟩, .single (some 3) ⟨8, by decide⟩,
    .ofReturns [some 2, some 4] [⟨0, by decide⟩, ⟨6, by decide⟩],
    .ofReturns [some 2, some 2] [⟨0, by decide⟩, ⟨6, by decide⟩]]

theorem standsFor_callsCopied {stack : List Int} :
    ((reached callsCopied).StandsFor (some 5) stack ↔ stack = [0, 8, 6] ∨ stack = [6, 8, 6]) ∧
      ((reached callsCopied).StandsFor (some 6) stack ↔ stack = [0, 8, 6] ∨ stack = [6, 8, 6]) := by
  have call : ∀ n c, (reached callsCopied).graph.entries n = [.call 8 c] →
      (reached callsCopied).graph.entries c = [.call 6 root] →
      ∀ rest, (reached callsCopied).graph.HasStack n rest ↔ rest = [8, 6] := by
    intro n c upper lower rest
    simp [hasStack_of_call upper, hasStack_of_call lower, hasStack_root]
  have first := call 2 1 rfl rfl
  have second := call 4 3 rfl rfl
  have above : (reached callsCopied).graph.entries 5 = [.call 0 2, .call 6 4] := rfl
  have shared : (reached callsCopied).graph.entries 6 = [.call 0 2, .call 6 2] := rfl
  rw [standsFor_some (by decide), standsFor_some (by decide), hasStack_iff_offers,
    hasStack_iff_offers, above, shared]
  cases stack with
  | nil => simp [Offers]
  | cons r rest =>
      simp [Offers, or_and_right, exists_or, and_assoc, first, second]

/-- Where a call goes on at an entry of a mode, a lookahead tells nodes with the same stacks
apart. -/
theorem look_differs_behind_resumed_entry :
    resumedEntry.RuleClosed ∧
      (reached callsCopied).graph.ReturnsLive resumedEntry 5 ∧
      (reached callsCopied).graph.ReturnsLive resumedEntry 6 ∧
      (∀ stack, (reached callsCopied).StandsFor (some 5) stack ↔
        (reached callsCopied).StandsFor (some 6) stack) ∧
      ∃ found, resumedEntry.look (reached callsCopied).graph (some 1) (some 5) {} = .ok found ∧
        7 ∈ found ∧ resumedEntry.look (reached callsCopied).graph (some 1) (some 6) {} = .ok ∅ := by
  have live : ∀ stack, stack = [0, 8, 6] ∨ stack = [6, 8, 6] →
      ∀ r ∈ stack, resumedEntry.state? r ≠ none := by
    rintro stack (rfl | rfl)
    · decide
    · decide
  refine ⟨resumedEntry_ruleClosed, ?_, ?_, fun stack => ?_,
    (SymbolSet.single 7).addSymbol Symbol.epsilon, ?_, by decide, ?_⟩
  · exact returnsLive_iff.mpr fun stack has => live stack (standsFor_callsCopied.1.mp has)
  · exact returnsLive_iff.mpr fun stack has => live stack (standsFor_callsCopied.2.mp has)
  · rw [standsFor_callsCopied.1, standsFor_callsCopied.2]
  · exact Loop.run_eq_of_runFor (n := 80) rfl _
  · exact Loop.run_eq_of_runFor (n := 80) rfl _

end Lookahead

end GrammarNet
