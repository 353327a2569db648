import GrammarNet.Proofs.UnseenPredicates

/-!
Lookahead up to a state.

A walk with a stop ends where it comes to this state with an empty stack. As long as it does not, it
takes the same rounds as the walk without a stop (`walk_unbounded_eq`), whatever the network is like.

Once it does, the two walks enter positions in different orders, so they are compared by what they
can reach. A way of the walk without a stop is either one of the walk with the stop, or it comes to
the stop with an empty stack and goes on from there (`Reach.split`). What lies behind the stop is
what a lookahead from the stop finds, since with an empty stack it does not matter how it was
reached.
-/

namespace GrammarNet

/-- Rule `0` may have a call of rule `1` and then has a symbol `6`, in state `5`. Rule `1` has a
symbol `5`. -/
def Network.optionBefore : Network where
  grammar := .parser
  maxSymbol := 10
  rules := #[⟨0, 1⟩, ⟨2, 3⟩]
  states := #[
    some
      { number := 0, kind := .ruleStart, rule := 0
        transitions := [⟨4, .epsilon⟩, ⟨5, .epsilon⟩] },
    some { number := 1, kind := .ruleStop, rule := 0 },
    some { number := 2, kind := .ruleStart, rule := 1, transitions := [⟨3, .atom 5⟩] },
    some { number := 3, kind := .ruleStop, rule := 1 },
    some { number := 4, kind := .basic, rule := 0, transitions := [⟨2, .call 5 1 0⟩] },
    some { number := 5, kind := .basic, rule := 0, transitions := [⟨1, .atom 6⟩] }]

namespace Lookahead

variable {ground : Ground} {n base : Nat} {a b p q : Position}

/-- The same ground without a stop. -/
abbrev Ground.unbounded (ground : Ground) : Ground :=
  { ground with stop := none }

theorem Ground.unbounded_going (ground : Ground) (m : Nat) (stack : CallStack) :
    ¬ ground.unbounded.Halts m stack := by
  rintro ⟨stop, -⟩
  cases stop

/-- The walk comes to its stop with an empty stack. -/
def MeetsStop (ground : Ground) (n base : Nat) : Prop :=
  ∃ m s stack, TakesUp ground n base (.visit m stack) ∧ ground.net.get? m = some s ∧
    ground.Halts m stack

/-! ### A walk that does not come to its stop -/

theorem enter_unbounded {w : Walk} {m : Nat} {s : State} {stack : CallStack}
    (going : ¬ ground.Halts m stack) :
    w.enter ground.unbounded m s stack = w.enter ground m s stack := by
  rw [Walk.enter, Walk.enter, if_neg going, if_neg (ground.unbounded_going m stack)]
  rfl

theorem round_unbounded {w : Walk}
    (going : ∀ m s stack tasks, w.tasks = .visit m stack :: tasks → ground.net.get? m = some s →
      ¬ ground.Halts m stack) : Walk.round ground.unbounded w = Walk.round ground w := by
  obtain ⟨tasks, entered, running, found⟩ := w
  cases tasks with
  | nil => rfl
  | cons task tasks =>
      cases task with
      | restore rule on => rfl
      | follow m i t stack => rfl
      | visit m stack =>
          cases hs : ground.net.get? m with
          | none => simp only [Walk.round, hs]
          | some s =>
              have same := fun w => enter_unbounded (w := w) (s := s) (going m s stack tasks rfl hs)
              simp only [Walk.round, hs, same]

/-- A walk that does not come to its stop has the same answer without the stop. -/
theorem walk_unbounded_eq (unmet : ¬ MeetsStop ground n base) :
    walk ground.unbounded n base = walk ground n base := by
  apply walk_congr
  intro w reaches
  apply round_unbounded
  intro m s stack tasks front hs halts
  exact unmet ⟨m, s, stack, ⟨w, tasks, reaches, front⟩, hs, halts⟩

/-! ### A walk that comes to its stop -/

theorem Moves.unbounded (move : Moves ground p q) : Moves ground.unbounded p q := by
  cases move with
  | cross hs kind _ ht crosses => exact .cross hs kind (ground.unbounded_going _ _) ht crosses
  | back hs kind _ mem => exact .back hs kind (ground.unbounded_going _ _) mem

theorem Reach.unbounded (reach : Reach ground p q) : Reach ground.unbounded p q := by
  induction reach with
  | refl => exact .refl
  | tail _ move ih => exact ih.tail move.unbounded

/-- Without the stop, a walk moves as with it, except where it would halt. -/
theorem Moves.bounded (move : Moves ground.unbounded p q)
    (going : ¬ ground.Halts p.state p.stack) : Moves ground p q := by
  cases move with
  | cross hs kind _ ht crosses => exact .cross hs kind going ht crosses
  | back hs kind _ mem => exact .back hs kind going mem

/-- A way without the stop is a way with it, or it comes to where the walk would halt. -/
theorem Reach.split (reach : Reach ground.unbounded p q) :
    Reach ground p q ∨
      ∃ a, Reach ground p a ∧ ground.Halts a.state a.stack ∧ Reach ground.unbounded a q := by
  induction reach with
  | refl => exact .inl .refl
  | @tail a q _ move ih =>
      rcases ih with reach | ⟨a, reach, halts, beyond⟩
      · by_cases halts : ground.Halts a.state a.stack
        · exact .inr ⟨a, reach, halts, .single move⟩
        · exact .inl (reach.tail (move.bounded halts))
      · exact .inr ⟨a, reach, halts, beyond.tail move⟩

theorem shows_unbounded {t : Transition} {x : Int} :
    Shows ground.unbounded t x ↔ Shows ground t x := by
  constructor
  · rintro (⟨asks, closed⟩ | mem)
    · exact .barrier asks closed
    · exact .symbol mem
  · rintro (⟨asks, closed⟩ | mem)
    · exact .barrier asks closed
    · exact .symbol mem

/-- With the stop, a walk records the mark of the end, or what it records without the stop. -/
theorem Emits.unbounded {x : Int} (emits : Emits ground p x)
    (symbol : x ≠ ground.options.boundary) : Emits ground.unbounded p x := by
  cases emits with
  | halt _ _ => exact absurd rfl symbol
  | ended _ _ _ => exact absurd rfl symbol
  | edge hs kind _ ht shows =>
      exact .edge hs kind (ground.unbounded_going _ _) ht (shows_unbounded.mpr shows)

/-- Without the stop, a walk records what it records with it, except where it would halt. -/
theorem Emits.bounded {x : Int} (emits : Emits ground.unbounded p x)
    (going : ¬ ground.Halts p.state p.stack) : Emits ground p x := by
  cases emits with
  | halt _ halts => exact absurd halts (ground.unbounded_going _ _)
  | @ended m s stack hs kind mem =>
      have shown : Emits ground ⟨m, stack⟩ ground.options.boundary := .ended hs kind mem
      exact shown
  | edge hs kind _ ht shows => exact .edge hs kind going ht (shows_unbounded.mp shows)

/-- What a walk can record without the stop, it can record before the stop or behind it. -/
theorem emitted_unbounded_iff {x : Int} (reach : Reach ground p q)
    (only : ∀ a : Position, ground.Halts a.state a.stack ↔ a = q)
    (symbol : x ≠ ground.options.boundary) :
    (∃ a, Reach ground.unbounded p a ∧ Emits ground.unbounded a x) ↔
      (∃ a, Reach ground p a ∧ Emits ground a x) ∨
        ∃ a, Reach ground.unbounded q a ∧ Emits ground.unbounded a x := by
  constructor
  · rintro ⟨b, way, emits⟩
    rcases way.split with way | ⟨a, -, halts, beyond⟩
    · by_cases halts : ground.Halts b.state b.stack
      · obtain rfl := (only b).mp halts
        exact .inr ⟨b, .refl, emits⟩
      · exact .inl ⟨b, way, emits.bounded halts⟩
    · obtain rfl := (only a).mp halts
      exact .inr ⟨b, beyond, emits⟩
  · rintro (⟨a, way, emits⟩ | ⟨a, beyond, emits⟩)
    · exact ⟨a, way.unbounded, emits.unbounded symbol⟩
    · exact ⟨a, reach.unbounded.trans beyond, emits⟩

/-! ### Lookahead up to a state -/

variable {net : Network} {graph : StackGraph}

theorem halts_iff {options : LookaheadOptions} {m : Nat} :
    Ground.Halts { net, graph, stop := some m, options } p.state p.stack ↔
      p = ⟨m, ⟨[], StackGraph.root⟩⟩ := by
  obtain ⟨k, stack⟩ := p
  rw [Ground.Halts, CallStack.isEmpty_iff, Option.some_inj, Position.mk.injEq, eq_comm]

/-- In a rule-closed network, a lookahead up to a state that comes to it with an empty stack has the
mark of the end. Apart from the mark, the lookahead without the stop finds what it finds, and what
can follow the stop with an empty stack; it has the mark when the end can follow the stop. A
lookahead that does not come to its stop finds the same without it. -/
theorem look_splits_at_stop {m : Nat} {stack : Option Nat} {options : LookaheadOptions}
    (closed : net.RuleClosed) (unresumed : net.NoEntryResumed)
    (live : graph.ReturnsLive net (graph.resolveRef stack)) :
    ∃ whole bounded beyond,
      net.look graph (some n) stack options = .ok whole ∧
      net.look graph (some n) stack options (some m) = .ok bounded ∧
      net.look graph (some m) none options = .ok beyond ∧
      (MeetsStop { net, graph, stop := some m, options } n (graph.resolveRef stack) →
        options.boundary ∈ bounded ∧
        (∀ x, x ≠ options.boundary → (x ∈ whole ↔ x ∈ bounded ∨ x ∈ beyond)) ∧
        (options.boundary ∈ beyond → options.boundary ∈ whole)) ∧
      (¬ MeetsStop { net, graph, stop := some m, options } n (graph.resolveRef stack) →
        bounded = whole) := by
  let ground : Ground := { net, graph, stop := some m, options }
  let start : Position := ⟨n, [], graph.resolveRef stack⟩
  let stop : Position := ⟨m, ⟨[], StackGraph.root⟩⟩
  have spec : Answers ground start (net.look graph (some n) stack options (some m)) :=
    look_spec closed unresumed live
  have spec' : Answers ground.unbounded start (net.look graph (some n) stack options) :=
    look_spec closed unresumed live
  have spec'' : Answers ground.unbounded stop (net.look graph (some m) none options) :=
    look_spec closed unresumed (StackGraph.returnsLive_root graph net)
  obtain ⟨bounded, answer, mem⟩ := spec
  obtain ⟨whole, answer', mem'⟩ := spec'
  obtain ⟨beyond, answer'', mem''⟩ := spec''
  refine ⟨whole, bounded, beyond, answer', answer, answer'', ?_, fun unmet => ?_⟩
  · rintro ⟨m', s, stack', takes, hs, halts⟩
    obtain ⟨rfl, rfl⟩ : m' = m ∧ stack' = ⟨[], StackGraph.root⟩ :=
      Position.mk.inj (halts_iff (p := ⟨m', stack'⟩).mp halts)
    have reach : Reach ground start stop := takes.reach (aligned_of_ruleClosed closed unresumed)
    refine ⟨(mem _).mpr ⟨stop, reach, .halt hs halts⟩, fun x symbol => ?_, fun ends => ?_⟩
    · rw [mem', mem, mem'']
      exact emitted_unbounded_iff reach (fun a => halts_iff) symbol
    · obtain ⟨q, way, emits⟩ := (mem'' _).mp ends
      exact (mem' _).mpr ⟨q, reach.unbounded.trans way, emits⟩
  · exact Except.ok.inj (answer.symm.trans ((walk_unbounded_eq unmet).symm.trans answer'))

/-- A walk that finds something else without its stop comes to it. -/
theorem meetsStop_of_ne {found found' : SymbolSet} (answer : walk ground n base = .ok found)
    (answer' : walk ground.unbounded n base = .ok found') (differ : found ≠ found') :
    MeetsStop ground n base := by
  apply Classical.byContradiction
  intro unmet
  rw [walk_unbounded_eq unmet, answer] at answer'
  exact differ (Except.ok.inj answer')

/-- The same behind a call that may be left out. -/
theorem look_splits_at_stop_optionBefore :
    Network.optionBefore.RuleClosed ∧ Network.optionBefore.NoEntryResumed ∧
      MeetsStop { net := .optionBefore, graph := .empty, stop := some 5 } 0 StackGraph.root ∧
      ∃ whole bounded beyond,
        Network.optionBefore.look .empty (some 0) none {} = .ok whole ∧
        Network.optionBefore.look .empty (some 0) none {} (some 5) = .ok bounded ∧
        Network.optionBefore.look .empty (some 5) none {} = .ok beyond ∧
        Symbol.epsilon ∈ bounded ∧
        (∀ x, x ≠ Symbol.epsilon → (x ∈ whole ↔ x ∈ bounded ∨ x ∈ beyond)) ∧
        (Symbol.epsilon ∈ beyond → Symbol.epsilon ∈ whole) := by
  have closed : Network.optionBefore.RuleClosed := by decide
  have unresumed : Network.optionBefore.NoEntryResumed := by decide
  have stopped : Network.optionBefore.look .empty (some 0) none {} (some 5) =
      .ok (.addSymbol (.single 5) Symbol.epsilon) :=
    Loop.run_eq_of_runFor (n := 40) rfl _
  have without : Network.optionBefore.look .empty (some 0) none {} =
      .ok (.addSymbol (.single 5) 6) :=
    Loop.run_eq_of_runFor (n := 40) rfl _
  have meets : MeetsStop { net := .optionBefore, graph := .empty, stop := some 5 } 0
      StackGraph.root :=
    meetsStop_of_ne stopped without (by decide)
  have live : StackGraph.empty.ReturnsLive Network.optionBefore
      (StackGraph.empty.resolveRef none) :=
    StackGraph.returnsLive_root _ _
  obtain ⟨whole, bounded, beyond, answer, answer', answer'', met, -⟩ :=
    look_splits_at_stop (n := 0) (m := 5) closed unresumed live
  exact ⟨closed, unresumed, meets, whole, bounded, beyond, answer, answer', answer'', met meets⟩

/-- Where a call goes on at an entry of a mode, what can follow the stop may be missed without the
stop. -/
theorem look_not_split_behind_resumed_entry :
    Network.resumedEntry.RuleClosed ∧ Network.resumedEntry.Omits Symbol.epsilon ∧
      StackGraph.empty.ReturnsLive Network.resumedEntry StackGraph.root ∧
      MeetsStop { net := .resumedEntry, graph := .empty, stop := some 8 } 7 StackGraph.root ∧
      ∃ whole beyond,
        Network.resumedEntry.look .empty (some 7) none {} = .ok whole ∧
        Network.resumedEntry.look .empty (some 8) none {} = .ok beyond ∧
        (7 ∈ beyond ∧ 7 ∉ whole) ∧ (Symbol.epsilon ∈ beyond ∧ Symbol.epsilon ∉ whole) := by
  have whole : Network.resumedEntry.look .empty (some 7) none {} = .ok ∅ :=
    Loop.run_eq_of_runFor (n := 40) rfl _
  have bounded : Network.resumedEntry.look .empty (some 7) none {} (some 8) =
      .ok (.single Symbol.epsilon) :=
    Loop.run_eq_of_runFor (n := 40) rfl _
  have beyond : Network.resumedEntry.look .empty (some 8) none {} =
      .ok (.addSymbol (.single 7) Symbol.epsilon) :=
    Loop.run_eq_of_runFor (n := 40) rfl _
  exact ⟨Network.resumedEntry_ruleClosed, by decide, StackGraph.returnsLive_root _ _,
    meetsStop_of_ne bounded whole (by decide), _, _, whole, beyond, by decide, by decide⟩

end Lookahead

end GrammarNet
