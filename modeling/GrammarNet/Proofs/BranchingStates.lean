import GrammarNet.Proofs.CallsInStep
import GrammarNet.Proofs.References

/-!
Where the choices of an assembled network are made.

In a network that is assembled from fragments, a state that joins or chooses leads on by edges that
consume nothing and ask nothing; all that is consumed, asked or called is at basic states. Only
states of a kind that decides are registered as decisions (`Assembled.branching`). So a decision
passes on to its alternatives and does nothing else.

An operation adds an edge with a label only at a basic state that it has just made, and it registers
only states that it has just made as well (`Branching.laid`).
-/

namespace GrammarNet

open Build

namespace State

/-- A state that joins or chooses only passes on, and only one of a kind that decides is
registered. -/
structure Branches (s : State) : Prop where
  plain : s.kind ≠ .basic → ∀ t ∈ s.transitions, t.label = .epsilon
  decides : s.decision.isSome → s.kind.isDecision = true

theorem branches_of_new {number : Nat} {kind : StateKind} {rule : Int} {stop : Option Nat} :
    Branches { number, kind, rule, stop } where
  plain := fun _ _ mem => absurd mem List.not_mem_nil
  decides := fun registered => by cases registered

theorem Branches.addTransition {s : State} (branches : s.Branches) {t : Transition}
    (allowed : t.label = .epsilon ∨ s.kind = .basic) :
    Branches { s with transitions := s.transitions ++ [t] } where
  plain := by
    intro joins t' mem
    rcases List.mem_append.mp mem with mem | mem
    · exact branches.plain joins t' mem
    · rw [List.mem_singleton.mp mem]
      exact allowed.resolve_right joins
  decides := branches.decides

end State

namespace Network

/-- All states of the network that join or choose only pass on. -/
def Branching (net : Network) : Prop :=
  net.All fun _ s => s.Branches

variable {net : Network}

theorem Branching.addTransition (branching : net.Branching) {n : Nat} {t : Transition}
    (allowed : t.label = .epsilon ∨ net.kindAt? n = some .basic) :
    (net.addTransition n t).Branching := by
  intro m s hs
  rw [get?_addTransition] at hs
  split at hs
  · next here =>
      subst here
      obtain ⟨s, here, rfl⟩ := Option.map_eq_some_iff.mp hs
      refine (branching n s here).addTransition (allowed.imp_right fun basic => ?_)
      rwa [kindAt?, here, Option.map_some, Option.some.injEq] at basic
  · exact branching m s hs

theorem kindAt?_addTransition (net : Network) (n : Nat) (t : Transition) (m : Nat) :
    (net.addTransition n t).kindAt? m = net.kindAt? m := by
  rw [kindAt?, get?_addTransition]
  split
  · rw [Option.map_map]
    rfl
  · rfl

theorem Branching.addEdges (branching : net.Branching) {added : List (Nat × Transition)}
    (allowed : ∀ e ∈ added, e.2.label = .epsilon ∨ net.kindAt? e.1 = some .basic) :
    (net.addEdges added).Branching := by
  induction added generalizing net with
  | nil => exact branching
  | cons e added ih =>
      obtain ⟨first, rest⟩ := List.forall_mem_cons.mp allowed
      refine ih (branching.addTransition first) fun e' mem => ?_
      rw [kindAt?_addTransition]
      exact rest e' mem

theorem Branching.pushStates (branching : net.Branching) (rule : Int) (kinds : List StateKind) :
    (net.pushStates rule kinds).Branching := by
  intro m s hs
  by_cases old : m < net.states.size
  · rw [get?_pushStates_of_lt old] at hs
    exact branching m s hs
  · obtain ⟨i, rfl⟩ := Nat.exists_eq_add_of_le (Nat.le_of_not_lt old)
    have inside : i < kinds.length := by
      have bound := Lookahead.lt_size_of_get? hs
      rw [size_pushStates] at bound
      omega
    rw [get?_pushStates (List.getElem?_eq_getElem inside)] at hs
    cases hs
    exact State.branches_of_new

theorem Branching.layout (branching : net.Branching) {rule : Int} {kinds : List StateKind}
    {added : List (Nat × Transition)}
    (labelled : ∀ e ∈ added, e.2.label = .epsilon ∨
      ∃ i, e.1 = net.states.size + i ∧ kinds[i]? = some .basic) :
    (net.layout rule kinds added).Branching := by
  refine (branching.pushStates rule kinds).addEdges fun e mem => (labelled e mem).imp_right ?_
  rintro ⟨i, same, basic⟩
  rw [same, kindAt?, get?_pushStates basic]
  rfl

/-- A state may be registered when its kind decides. -/
theorem Branching.withDecision (branching : net.Branching) {n : Nat} (undecided : net.Undecided n) :
    (net.withDecision n).Branching := by
  intro m s' hs'
  obtain ⟨s, hs, rfl⟩ := exists_of_get?_withDecision hs'
  split
  · next here =>
      subst here
      obtain ⟨s₀, hs₀, -, decides, -⟩ := undecided
      cases hs.symm.trans hs₀
      exact ⟨(branching n s hs).plain, fun _ => decides⟩
  · exact branching m s hs

theorem Branching.withDecisions (branching : net.Branching) {slots : List Nat}
    (nodup : slots.Nodup) (undecided : ∀ n ∈ slots, net.Undecided n) :
    (net.withDecisions slots).Branching := by
  induction slots generalizing net with
  | nil => exact branching
  | cons n slots ih =>
      obtain ⟨fresh, nodup⟩ := List.nodup_cons.mp nodup
      obtain ⟨first, rest⟩ := List.forall_mem_cons.mp undecided
      refine ih (branching.withDecision first) nodup fun m mem => ?_
      exact undecided_withDecision.mpr ⟨fun same => fresh (same ▸ mem), rest m mem⟩

theorem nodup_decisionSlots (base : Nat) (kinds : List StateKind) :
    (decisionSlots base kinds).Nodup := by
  induction kinds generalizing base with
  | nil => exact List.nodup_nil
  | cons kind kinds ih =>
      rw [decisionSlots]
      split
      · refine List.nodup_cons.mpr ⟨fun mem => ?_, ih (base + 1)⟩
        exact Nat.not_succ_le_self base (le_of_mem_decisionSlots mem)
      · exact ih (base + 1)

/-- A layout registers states that it makes, and labels edges at basic ones that it makes. -/
theorem Branching.laid (branching : net.Branching) {op : Operation} {kinds : List StateKind}
    {added : List (Nat × Transition)} (laid : op.Laid net kinds added) :
    ((net.layout op.rule kinds added).withDecisions
      (decisionSlots net.states.size kinds)).Branching := by
  refine (branching.layout laid.labelled).withDecisions (nodup_decisionSlots _ _) fun n mem => ?_
  rw [Network.layout, undecided_addEdges, undecided_pushStates]
  exact .inr mem

theorem Branching.withRule (branching : net.Branching) : (Fragment.withRule net).Branching := by
  intro m s hs
  rw [Fragment.get?_withRule] at hs
  split at hs
  · cases hs
    exact State.branches_of_new
  · split at hs
    · cases hs
      exact State.branches_of_new
    · exact branching m s hs

theorem Branching.pushEntry (branching : net.Branching) (targets : List Nat) :
    (net.pushEntry targets).Branching := by
  intro m s hs
  rw [get?_pushEntry] at hs
  split at hs
  · cases hs
    refine ⟨fun _ t mem => ?_, fun registered => by cases registered⟩
    obtain ⟨target, -, rfl⟩ := List.mem_map.mp mem
    rfl
  · exact branching m s hs

end Network

open Network

/-- An operation keeps the states that join or choose as they are. -/
theorem Operation.branching {net : Network} (coherent : net.Coherent) (branching : net.Branching)
    (op : Operation) : (exec op.run net).2.Branching := by
  have outcome := op.outcome coherent
  generalize exec op.run net = result at outcome
  cases outcome with
  | refused e other => exact branching
  | ruled tokenTypes => exact branching.withRule
  | laid kinds added made laid => exact branching.laid laid
  | called callee precedence boundary found =>
      refine (branching.layout fun e mem => ?_).addTransition (.inl rfl)
      rw [List.mem_singleton.mp mem]
      exact .inr ⟨0, rfl, rfl⟩
  | modeRefused e name rules targets mode registered => exact branching.pushEntry targets
  | moded name targets free registered =>
      have entered : ((net.pushEntry targets).withDecision net.states.size).Branching :=
        (branching.pushEntry targets).withDecision ((undecided_pushEntry targets).mpr (.inr rfl))
      exact entered

theorem Assembled.branching {a : Assembly} (assembled : Assembled a) : a.net.Branching := by
  induction assembled with
  | start grammar maxSymbol =>
      intro n s hs
      exact absurd (Lookahead.lt_size_of_get? hs) (Nat.not_lt_zero n)
  | apply op before _ ih =>
      rw [Assembly.net_apply]
      exact op.branching before.coherent ih

/-- A decision is a state that passes on to its alternatives. -/
theorem Assembled.decision {a : Assembly} (assembled : Assembled a) {n : Nat}
    (mem : n ∈ a.net.decisions) :
    ∃ s, a.net.get? n = some s ∧ s.kind.isDecision = true ∧
      ∀ t ∈ s.transitions, t.label = .epsilon := by
  obtain ⟨s, hs, registered⟩ := assembled.coherent.live_decision mem
  have branches := assembled.branching n s hs
  have decides := branches.decides registered
  refine ⟨s, hs, decides, branches.plain fun basic => ?_⟩
  simp [basic, StateKind.isDecision] at decides

end GrammarNet
