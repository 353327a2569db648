import GrammarNet.Proofs.Encounters
import GrammarNet.Proofs.RuleClosed

/-!
What a lookahead misses when it does not look through predicates.

A walk that does not look through predicates goes on in fewer positions, and so it finds fewer
symbols; in place of those behind a predicate it records `Symbol.invalid`. The two walks enter
positions in a different order as soon as a predicate is met, so this is not seen round by round. It
is seen from the positions that can be reached (`Reach.seeing`), since what a walk finds in a
rule-closed network is what is emitted there. Where no predicate is met, the walks are the same.

When no edge consumes `Symbol.invalid`, the mark tells that a predicate was met
(`invalid_mem_walk_iff`); such an edge is taken for a predicate.
-/

namespace GrammarNet

namespace Network

/-- No edge consumes the symbol. -/
def Omits (net : Network) (x : Int) : Prop :=
  net.All fun _ s => ∀ t ∈ s.transitions, t.label.accepts Symbol.firstUser net.maxSymbol x = false

instance (net : Network) (x : Int) : Decidable (net.Omits x) :=
  inferInstanceAs (Decidable (net.All _))

/-- The network `leftSum` with a precedence that guards the call of rule `0` by itself. -/
def guardedSum : Network :=
  { leftSum with
    states := leftSum.states.setIfInBounds 0
      (some
        { number := 0, kind := .ruleStart, rule := 0
          transitions := [⟨4, .precedence 1⟩, ⟨6, .epsilon⟩] }) }

/-- The network `resumedEntry` with a predicate in state `7`; behind it, rule `0` is called. -/
def askedEntry : Network :=
  { resumedEntry with
    states :=
      (resumedEntry.states.setIfInBounds 7
        (some
          { number := 7, kind := .basic, rule := 0
            transitions := [⟨11, .predicate 0 0 false⟩, ⟨8, .epsilon⟩] })).push
        (some { number := 11, kind := .basic, rule := 0, transitions := [⟨0, .call 8 0 0⟩] }) }

end Network

namespace Lookahead

variable {ground : Ground} {n base : Nat} {p q : Position}

/-! ### The positions that are reached -/

theorem passes_seeing {options : LookaheadOptions} {l : Label} (pass : options.passes l = true) :
    LookaheadOptions.passes { options with seeThroughPredicates := true } l = true := by
  simp only [LookaheadOptions.passes, Bool.and_eq_true] at pass ⊢
  exact ⟨pass.1, Bool.or_true _⟩

theorem Moves.seeing (move : Moves ground p q) : Moves (ground.seeing true) p q := by
  cases move with
  | cross hs kind going ht crosses =>
      refine .cross hs kind going ht ?_
      cases crosses with
      | pass pass => exact .pass (passes_seeing pass)
      | call label idle => exact .call label idle
  | back hs kind going mem => exact .back hs kind going mem

/-- Looking through predicates, a walk can still go wherever it could go before. -/
theorem Reach.seeing (reach : Reach ground p q) : Reach (ground.seeing true) p q := by
  induction reach with
  | refl => exact .refl
  | tail _ move ih => exact ih.tail move.seeing

/-- What is emitted is emitted as well when predicates are looked through, except for the mark of a
predicate. -/
theorem Emits.seeing {x : Int} (emits : Emits ground p x) (symbol : x ≠ Symbol.invalid) :
    Emits (ground.seeing true) p x := by
  cases emits with
  | @halt m s stack hs halts =>
      have shown : Emits (ground.seeing true) ⟨m, stack⟩ (ground.seeing true).options.boundary :=
        .halt hs halts
      exact shown
  | @ended m s stack hs kind mem =>
      have shown : Emits (ground.seeing true) ⟨m, stack⟩ (ground.seeing true).options.boundary :=
        .ended hs kind mem
      exact shown
  | edge hs kind going ht shows =>
      refine .edge hs kind going ht ?_
      cases shows with
      | barrier _ _ => exact absurd rfl symbol
      | symbol mem => exact .symbol mem

/-! ### The mark of a predicate -/

theorem boundary_ne_invalid (options : LookaheadOptions) : options.boundary ≠ Symbol.invalid := by
  unfold LookaheadOptions.boundary
  split <;> decide

theorem not_meetsSymbol_of_omits {x : Int} (omits : ground.net.Omits x) :
    ¬ MeetsSymbol ground n base x := by
  intro meets
  obtain ⟨m, s, t, hs, mem, accepts⟩ := meets.exists_edge
  rw [omits m s hs t mem] at accepts
  cases accepts

/-- The mark of a predicate is found when a predicate is met, or an edge that consumes it. -/
theorem invalid_mem_walk_iff {found : SymbolSet} (answer : walk ground n base = .ok found)
    (closed : ground.options.seeThroughPredicates = false) :
    Symbol.invalid ∈ found ↔
      MeetsPredicate ground n base ∨ MeetsSymbol ground n base Symbol.invalid := by
  rw [mem_walk_iff answer]
  constructor
  · intro notes
    generalize same : Symbol.invalid = x at notes
    cases notes with
    | symbol meets => exact .inr (same ▸ meets)
    | predicate _ meets => exact .inl meets
    | ending _ => exact absurd same.symm (boundary_ne_invalid _)
  · rintro (meets | meets)
    · exact .predicate closed meets
    · exact .symbol meets

/-! ### Lookahead with and without predicates -/

variable {net : Network} {graph : StackGraph}

/-- In a rule-closed network in which no edge consumes the mark of a predicate, a lookahead that
does not look through predicates finds no symbol that it would not find otherwise. It finds the
mark when it meets a predicate, and when it meets none it finds the same. -/
theorem look_unseen_only_removes {stack stop : Option Nat} {atEnd : Bool} (closed : net.RuleClosed)
    (unresumed : net.NoEntryResumed) (omits : net.Omits Symbol.invalid)
    (live : graph.ReturnsLive net (graph.resolveRef stack)) :
    ∃ seen unseen,
      net.look graph (some n) stack ⟨true, atEnd⟩ stop = .ok seen ∧
      net.look graph (some n) stack ⟨false, atEnd⟩ stop = .ok unseen ∧
      (∀ x ∈ unseen, x ≠ Symbol.invalid → x ∈ seen) ∧
      (Symbol.invalid ∈ unseen ↔
        MeetsPredicate { net, graph, stop, options := ⟨false, atEnd⟩ } n (graph.resolveRef stack)) ∧
      (¬ Symbol.invalid ∈ unseen → unseen = seen) := by
  let ground : Ground := { net, graph, stop, options := ⟨false, atEnd⟩ }
  have spec : ∀ see, Answers (ground.seeing see) ⟨n, [], graph.resolveRef stack⟩
      (net.look graph (some n) stack ⟨see, atEnd⟩ stop) :=
    fun see => look_spec closed unresumed live
  obtain ⟨seen, answer, mem⟩ := spec true
  obtain ⟨unseen, answer', mem'⟩ := spec false
  have marked : Symbol.invalid ∈ unseen ↔ MeetsPredicate ground n (graph.resolveRef stack) :=
    (invalid_mem_walk_iff answer' rfl).trans (or_iff_left (not_meetsSymbol_of_omits omits))
  refine ⟨seen, unseen, answer, answer', fun x found symbol => ?_, marked, fun unmarked => ?_⟩
  · obtain ⟨p, reach, emits⟩ := (mem' x).mp found
    exact (mem x).mpr ⟨p, reach.seeing, emits.seeing symbol⟩
  · have same := walk_seeing_eq true (fun meets => unmarked (marked.mpr meets))
    exact Except.ok.inj (answer'.symm.trans (same.symm.trans answer))

/-- The same for the sum, with its call of itself guarded by a precedence, and for a call of it. -/
theorem look_unseen_only_removes_guardedSum :
    Network.guardedSum.RuleClosed ∧ Network.guardedSum.NoEntryResumed ∧
      Network.guardedSum.Omits Symbol.invalid ∧
      StackGraph.callOfSum.ReturnsLive Network.guardedSum
        (StackGraph.callOfSum.resolveRef (some 1)) ∧
      ∃ seen unseen,
        Network.guardedSum.look StackGraph.callOfSum (some 0) (some 1) ⟨true, true⟩ = .ok seen ∧
        Network.guardedSum.look StackGraph.callOfSum (some 0) (some 1) ⟨false, true⟩ = .ok unseen ∧
        (∀ x ∈ unseen, x ≠ Symbol.invalid → x ∈ seen) ∧
        (Symbol.invalid ∈ unseen ↔
          MeetsPredicate
            { net := .guardedSum, graph := .callOfSum, options := ⟨false, true⟩ } 0
            (StackGraph.callOfSum.resolveRef (some 1))) ∧
        (¬ Symbol.invalid ∈ unseen → unseen = seen) := by
  have closed : Network.guardedSum.RuleClosed := by decide
  have unresumed : Network.guardedSum.NoEntryResumed := by decide
  have omits : Network.guardedSum.Omits Symbol.invalid := by decide
  have live : StackGraph.callOfSum.ReturnsLive Network.guardedSum
      (StackGraph.callOfSum.resolveRef (some 1)) :=
    StackGraph.callOfSum_returnsLive (by decide)
  exact ⟨closed, unresumed, omits, live, look_unseen_only_removes closed unresumed omits live⟩

/-! ### A symbol that only the lookahead without predicates finds -/

/-- Where a call goes on at an entry of a mode, a lookahead that does not look through predicates
may find a symbol, and the end, that it does not find when it looks through them. -/
theorem unseen_adds_behind_resumed_entry :
    Network.askedEntry.RuleClosed ∧ Network.askedEntry.Omits Symbol.invalid ∧
      Network.askedEntry.look .empty (some 7) none ⟨true, false⟩ = .ok ∅ ∧
      Network.askedEntry.look .empty (some 7) none ⟨false, false⟩ =
        .ok (((SymbolSet.single Symbol.epsilon).addSymbol Symbol.invalid).addSymbol 7) := by
  refine ⟨by decide, by decide, ?_, ?_⟩
  · exact Loop.run_eq_of_runFor (n := 60) rfl _
  · exact Loop.run_eq_of_runFor (n := 60) rfl _

end Lookahead

end GrammarNet
