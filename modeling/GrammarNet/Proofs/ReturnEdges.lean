import GrammarNet.Proofs.Outcomes
import Mathlib.Data.List.Basic

/-!
Calls and returns of networks that are assembled from fragments.

An end of a rule gets an edge when a call of the rule is made, and by nothing else, so its edges are
the returns of the calls that there are, in their order (`Network.Returned`). Each operation keeps
this (`Assembly.Sound.returned_apply`), since of its outcomes only `Operation.Outcome.called` adds a
call, and only `Operation.Outcome.ruled` adds an end of a rule, which nothing calls yet. A call is
made at a new state, so that calls stand in the order of their making (`Network.CallsKept`).
-/

namespace GrammarNet

open Build

/-! ### Calls -/

/-- Where a call that leads to a state goes on. -/
def Transition.followTo? (start : Nat) (t : Transition) : Option Nat :=
  if t.target = start then t.label.follow? else none

theorem Transition.followTo?_of_plain {t : Transition} (plain : t.label.follow? = none)
    (start : Nat) : t.followTo? start = none := by
  unfold followTo?
  split
  · exact plain
  · rfl

namespace Network

/-- Where the calls of a state go on that lead to a start. -/
def followsAt (net : Network) (start n : Nat) : List Nat :=
  (net.get? n).elim [] fun s => s.transitions.filterMap (·.followTo? start)

/-- Where all calls go on that lead to a start. -/
def followsOf (net : Network) (start : Nat) : List Nat :=
  (List.range net.states.size).flatMap (net.followsAt start)

variable {net net' : Network} {start : Nat}

/-- An end of a rule calls nothing. -/
theorem Wired.followsAt_eq (wired : net.Wired) (start n : Nat) :
    net.followsAt start n = (net.ways n).filterMap (·.followTo? start) := by
  unfold followsAt ways
  cases hs : net.get? n with
  | none => rfl
  | some s =>
      simp only [Option.elim_some, State.onward]
      split
      · next stop =>
          refine List.filterMap_eq_nil_iff.mpr fun t mem => ?_
          have admits := wired.edges n s hs t mem
          simp only [Admits, stop] at admits
          exact Transition.followTo?_of_plain (by rw [admits.1]; rfl) start
      · rfl

theorem followsAt_of_size_le {n : Nat} (new : net.states.size ≤ n) :
    net.followsAt start n = [] := by
  rw [followsAt, get?_of_size_le new]
  rfl

/-- New states that call nothing change no calls. -/
theorem followsOf_congr {fresh : Nat} (size : net'.states.size = net.states.size + fresh)
    (same : ∀ n, net'.followsAt start n = net.followsAt start n) :
    net'.followsOf start = net.followsOf start := by
  have none :
      ((List.range fresh).map (net.states.size + ·)).flatMap (net.followsAt start) = [] := by
    refine List.flatMap_eq_nil_iff.mpr fun n mem => ?_
    obtain ⟨i, -, rfl⟩ := List.mem_map.mp mem
    exact followsAt_of_size_le (Nat.le_add_right _ _)
  rw [followsOf, size, funext same, List.range_add, List.flatMap_append, none, List.append_nil]
  rfl

/-- Edges that are no calls change no calls. -/
theorem Grown.followsOf_eq (wired : net.Wired) (wired' : net'.Wired) {fresh : Nat}
    {added : List (Nat × Transition)} (grown : Grown net net' fresh added)
    (plain : ∀ e ∈ added, e.2.label.follow? = none) (start : Nat) :
    net'.followsOf start = net.followsOf start := by
  refine followsOf_congr grown.size fun n => ?_
  have none : (edgesFrom added n).filterMap (·.followTo? start) = [] := by
    refine List.filterMap_eq_nil_iff.mpr fun t mem => ?_
    obtain ⟨e, new, here⟩ := List.mem_filterMap.mp mem
    obtain ⟨-, rfl⟩ : e.1 = n ∧ e.2 = t := by simpa using here
    exact Transition.followTo?_of_plain (plain e new) start
  rw [wired'.followsAt_eq, wired.followsAt_eq, grown.ways, List.filterMap_append, none,
    List.append_nil]

/-- A call goes on at the state made last. -/
theorem Grown.followsOf_call (wired : net.Wired) (wired' : net'.Wired) {boundary : Rule}
    {callee precedence : Int}
    (grown : Grown net net' 2 (Fragment.callEdges net.states.size boundary callee precedence))
    (start : Nat) :
    net'.followsOf start = net.followsOf start ++
      if boundary.start = start then [net.states.size + 1] else [] := by
  have at' : ∀ n, net'.followsAt start n = net.followsAt start n ++
      if net.states.size = n ∧ boundary.start = start then [net.states.size + 1] else [] := by
    intro n
    rw [wired'.followsAt_eq, wired.followsAt_eq, grown.ways, List.filterMap_append]
    congr 1
    by_cases here : net.states.size = n <;> by_cases leads : boundary.start = start <;>
      simp [Fragment.callEdges, Transition.followTo?, Label.follow?, here, leads]
  have old : (List.range net.states.size).flatMap (net'.followsAt start) =
      net.followsOf start := by
    refine List.flatMap_congr fun n mem => ?_
    rw [at', if_neg, List.append_nil]
    rintro ⟨rfl, -⟩
    exact Nat.lt_irrefl _ (List.mem_range.mp mem)
  have entry : net'.followsAt start net.states.size =
      if boundary.start = start then [net.states.size + 1] else [] := by
    rw [at', followsAt_of_size_le (Nat.le_refl _)]
    simp
  have follow : net'.followsAt start (net.states.size + 1) = [] := by
    rw [at', followsAt_of_size_le (Nat.le_succ _)]
    simp
  rw [followsOf, grown.size, List.range_succ, List.range_succ, List.flatMap_append,
    List.flatMap_append, List.flatMap_singleton, List.flatMap_singleton, old, entry, follow,
    List.append_nil]

theorem Grown.withDecisions {fresh : Nat} {added : List (Nat × Transition)}
    (grown : Grown net net' fresh added) (slots : List Nat) :
    Grown net (net'.withDecisions slots) fresh added := by
  induction slots generalizing net' with
  | nil => exact grown
  | cons n slots ih => exact ih (grown.withDecision n)

/-! ### Ends of rules -/

/-- Each end of a rule is one of the other network, with the same edges. -/
def KeepsStops (net net' : Network) : Prop :=
  ∀ n e', net'.get? n = some e' → e'.kind = .ruleStop →
    ∃ e, net.get? n = some e ∧ e.kind = .ruleStop ∧ e'.transitions = e.transitions

variable {net'' : Network}

theorem KeepsStops.refl (net : Network) : net.KeepsStops net :=
  fun _ e he stop => ⟨e, he, stop, rfl⟩

theorem KeepsStops.trans (first : net.KeepsStops net') (second : net'.KeepsStops net'') :
    net.KeepsStops net'' := by
  intro n e'' he'' stop
  obtain ⟨e', he', stop', same'⟩ := second n e'' he'' stop
  obtain ⟨e, he, stop, same⟩ := first n e' he' stop'
  exact ⟨e, he, stop, same'.trans same⟩

theorem keepsStops_modifyState (n : Nat) {f : State → State} (kind : ∀ s, (f s).kind = s.kind)
    (same : ∀ s, net.get? n = some s → s.kind = .ruleStop → (f s).transitions = s.transitions) :
    net.KeepsStops (net.modifyState n f) := by
  intro m e' he' stop
  rw [get?_modifyState] at he'
  split at he'
  · next here =>
      subst here
      obtain ⟨e, he, rfl⟩ := Option.map_eq_some_iff.mp he'
      rw [kind] at stop
      exact ⟨e, he, stop, same e he stop⟩
  · exact ⟨e', he', stop, rfl⟩

theorem keepsStops_addEdges {added : List (Nat × Transition)}
    (going : ∀ e ∈ added, net.Going e.1) : net.KeepsStops (net.addEdges added) := by
  induction added generalizing net with
  | nil => exact .refl net
  | cons e added ih =>
      rw [List.forall_mem_cons] at going
      have first : net.KeepsStops (net.addTransition e.1 e.2) := by
        refine keepsStops_modifyState e.1 (fun _ => rfl) fun s hs stop => ?_
        obtain ⟨s', hs', inner⟩ := going.1
        cases hs.symm.trans hs'
        exact absurd stop inner
      exact first.trans (ih fun e' mem => (going.2 e' mem).addTransition e.1 e.2)

theorem keepsStops_pushStates {rule : Int} {kinds : List StateKind}
    (inner : ∀ kind ∈ kinds, kind ≠ .ruleStop) : net.KeepsStops (net.pushStates rule kinds) := by
  induction kinds generalizing net with
  | nil => exact .refl net
  | cons kind kinds ih =>
      rw [List.forall_mem_cons] at inner
      refine KeepsStops.trans (fun n e' he' stop => ?_) (ih inner.2)
      rw [get?_pushState] at he'
      split at he'
      · cases he'
        exact absurd stop inner.1
      · exact ⟨e', he', stop, rfl⟩

theorem keepsStops_withDecisions (slots : List Nat) : net.KeepsStops (net.withDecisions slots) := by
  induction slots generalizing net with
  | nil => exact .refl net
  | cons n slots ih =>
      have first : net.KeepsStops (net.withDecision n) :=
        keepsStops_modifyState n (fun _ => rfl) fun _ _ _ => rfl
      exact first.trans ih

theorem keepsStops_pushEntry (targets : List Nat) : net.KeepsStops (net.pushEntry targets) := by
  intro n e' he' stop
  rw [get?_pushEntry] at he'
  split at he'
  · cases he'
    cases stop
  · exact ⟨e', he', stop, rfl⟩

theorem keepsStops_layout {rule : Int} {kinds : List StateKind} {added : List (Nat × Transition)}
    (inner : ∀ kind ∈ kinds, kind ≠ .ruleStop)
    (sources : ∀ e ∈ added,
      net.Going e.1 ∨ net.states.size ≤ e.1 ∧ e.1 < net.states.size + kinds.length) :
    net.KeepsStops (net.layout rule kinds added) :=
  (keepsStops_pushStates inner).trans
    (keepsStops_addEdges fun e mem => going_pushStates inner (sources e mem))

/-! ### Returns -/

/-- Each end of a rule returns to where the calls of the rule go on, in the order of the calls. -/
def Returned (net : Network) : Prop :=
  net.All fun n e => e.kind = .ruleStop → ∃ (r : Nat) (rule : Rule), net.rules[r]? = some rule ∧
    rule.stop = n ∧ e.transitions = (net.followsOf rule.start).map .epsilon

/-- All calls of before are there, and come before those that were made since. -/
def CallsKept (net net' : Network) : Prop :=
  ∀ start, net.followsOf start <+: net'.followsOf start

theorem callsKept_of_eq (follows : ∀ start, net'.followsOf start = net.followsOf start) :
    net.CallsKept net' :=
  fun start => (follows start).symm ▸ List.prefix_rfl

theorem Returned.keep (returned : net.Returned) (stops : net.KeepsStops net')
    (rules : net'.rules = net.rules)
    (follows : ∀ start, net'.followsOf start = net.followsOf start) : net'.Returned := by
  intro n e' he' stop
  obtain ⟨e, he, stop, same⟩ := stops n e' he' stop
  obtain ⟨r, rule, entry, here, edges⟩ := returned n e he stop
  exact ⟨r, rule, rules ▸ entry, here, by rw [same, edges, follows]⟩

/-- A boundary state carries the number of its rule. -/
theorem Coherent.rule_unique (coherent : net.Coherent) {r r' : Nat} {rule rule' : Rule}
    (entry : net.rules[r]? = some rule) (entry' : net.rules[r']? = some rule')
    (same : rule.start = rule'.start ∨ rule.stop = rule'.stop) : rule = rule' := by
  have number : r = r' := by
    rcases same with same | same
    · obtain ⟨s, hs, -, number, -⟩ := (coherent.rules r rule entry).start
      obtain ⟨s', hs', -, number', -⟩ := (coherent.rules r' rule' entry').start
      cases (same ▸ hs).symm.trans hs'
      omega
    · obtain ⟨e, he, -, number⟩ := (coherent.rules r rule entry).stop
      obtain ⟨e', he', -, number'⟩ := (coherent.rules r' rule' entry').stop
      cases (same ▸ he).symm.trans he'
      omega
  subst number
  exact Option.some.inj (entry.symm.trans entry')

/-- Nothing calls what is not there. -/
theorem Wired.followsOf_size (wired : net.Wired) : net.followsOf net.states.size = [] := by
  refine List.flatMap_eq_nil_iff.mpr fun n _ => ?_
  unfold followsAt
  cases hs : net.get? n with
  | none => rfl
  | some s =>
      refine List.filterMap_eq_nil_iff.mpr fun t mem => if_neg fun here => ?_
      obtain ⟨⟨r, s', hs', -⟩, -⟩ := (wired.edges n s hs t mem).names
      exact Nat.lt_irrefl _ (Lookahead.lt_size_of_get? (here ▸ hs'))

/-- The boundary states of a new rule call nothing. -/
theorem followsAt_withRule (net : Network) (start n : Nat) :
    (Fragment.withRule net).followsAt start n = net.followsAt start n := by
  rw [followsAt, Fragment.get?_withRule]
  split
  · rw [followsAt_of_size_le (by omega)]
    rfl
  · split
    · rw [followsAt_of_size_le (by omega)]
      rfl
    · rfl

/-- Neither does the entry of a mode. -/
theorem followsAt_pushEntry (net : Network) (targets : List Nat) (start n : Nat) :
    (net.pushEntry targets).followsAt start n = net.followsAt start n := by
  rw [followsAt, get?_pushEntry]
  split
  · rw [followsAt_of_size_le (by omega)]
    refine List.filterMap_eq_nil_iff.mpr fun t mem => ?_
    obtain ⟨target, -, rfl⟩ := List.mem_map.mp mem
    exact Transition.followTo?_of_plain rfl start
  · rfl

theorem followsAt_withDecision (net : Network) (m start n : Nat) :
    (net.withDecision m).followsAt start n = net.followsAt start n := by
  rw [followsAt, followsAt, get?_withDecision]
  split
  · cases net.get? n <;> rfl
  · rfl

theorem followsOf_withRule (net : Network) (start : Nat) :
    (Fragment.withRule net).followsOf start = net.followsOf start :=
  followsOf_congr (ruled_withRule net).size fun n => followsAt_withRule net start n

/-- The end of a new rule has no edges, and nothing calls the rule yet. -/
theorem Returned.withRule (returned : net.Returned) (wired : net.Wired) :
    (Fragment.withRule net).Returned := by
  intro n e he stop
  rw [Fragment.get?_withRule] at he
  split at he
  · next last =>
      cases he
      refine ⟨net.rules.size, ⟨net.states.size, net.states.size + 1⟩, ?_, last.symm, ?_⟩
      · exact (Fragment.rules_withRule net _).trans (if_pos rfl)
      · rw [followsOf_withRule, wired.followsOf_size]
        rfl
  · split at he
    · cases he
      cases stop
    · obtain ⟨r, rule, entry, here, edges⟩ := returned n e he stop
      refine ⟨r, rule, ?_, here, by rw [followsOf_withRule, edges]⟩
      have old : r ≠ net.rules.size := by
        rintro rfl
        simp at entry
      exact (Fragment.rules_withRule net r).trans ((if_neg old).trans entry)

/-- A call adds the return that belongs to it. -/
theorem Returned.call (returned : net.Returned) (coherent : net.Coherent) {boundary : Rule}
    {k r : Nat} (entry : net.rules[r]? = some boundary) (stops : net.KeepsStops net')
    (rules : net'.rules = net.rules)
    (follows : ∀ start, (net'.addTransition boundary.stop (.epsilon k)).followsOf start =
      net.followsOf start ++ if boundary.start = start then [k] else []) :
    (net'.addTransition boundary.stop (.epsilon k)).Returned := by
  intro n e' he' stop
  rw [get?_addTransition] at he'
  split at he'
  · next here =>
      obtain ⟨e₁, he₁, rfl⟩ := Option.map_eq_some_iff.mp he'
      obtain ⟨e, he, stop, same⟩ := stops n e₁ he₁ stop
      obtain ⟨r', rule, entry', here', edges⟩ := returned n e he stop
      obtain rfl := coherent.rule_unique entry entry' (.inr (here.trans here'.symm))
      refine ⟨r, boundary, by rwa [← rules] at entry, here, ?_⟩
      rw [follows, if_pos rfl, List.map_append, ← edges, same]
      rfl
  · next other =>
      obtain ⟨e, he, stop, same⟩ := stops n e' he' stop
      obtain ⟨r', rule, entry', here', edges⟩ := returned n e he stop
      have apart : boundary.start ≠ rule.start := by
        intro same
        obtain rfl := coherent.rule_unique entry entry' (.inl same)
        exact other here'
      refine ⟨r', rule, by rwa [← rules] at entry', here', ?_⟩
      rw [follows, if_neg apart, List.append_nil, same, edges]

end Network

/-! ### Assemblies -/

open Network

variable {a : Assembly} {op : Operation}

theorem Assembly.net_apply (a : Assembly) (op : Operation) :
    (a.apply op).net = (exec op.run a.net).2 := by
  unfold Assembly.apply
  generalize exec op.run a.net = outcome
  obtain ⟨e | made, net⟩ := outcome <;> rfl

theorem Assembled.coherent (assembled : Assembled a) : a.net.Coherent := by
  induction assembled with
  | start grammar maxSymbol => exact coherent_start grammar maxSymbol
  | apply op _ _ ih =>
      rw [Assembly.net_apply]
      exact (Coherently.operation op _ ih).1

/-- The edges of a layout begin at states that go on. -/
theorem Assembly.Sound.going (sound : a.Sound) (own : ∀ f ∈ op.uses, (op.rule, f) ∈ a.parts)
    {kinds : List StateKind} {added : List (Nat × Transition)} (laid : op.Laid a.net kinds added) :
    ∀ e ∈ added, a.net.Going e.1 ∨
      a.net.states.size ≤ e.1 ∧ e.1 < a.net.states.size + kinds.length := by
  have inner_going : ∀ n, a.net.Inner op.rule n → a.net.Going n := by
    rintro n ⟨s, hs, -, -, stop⟩
    exact ⟨s, hs, stop⟩
  intro e mem
  rcases laid.sources e mem with used | new | ⟨rule, found, start⟩
  · obtain ⟨f, part, here⟩ := List.mem_flatMap.mp used
    exact .inl (inner_going _ (sound.parts _ (own f part) _ here))
  · exact .inr new
  · have start' := (Fragment.bounds_of_rule sound.wired found).1.inner_start
    exact .inl (inner_going _ (start ▸ start'))

/-- An operation keeps calls and returns in step, and calls that it makes come behind the others. -/
theorem Assembly.Sound.returned_apply (sound : a.Sound) (coherent : a.net.Coherent)
    (returned : a.net.Returned) (own : ∀ f ∈ op.uses, (op.rule, f) ∈ a.parts) :
    (a.apply op).net.Returned ∧
      a.net.CallsKept (a.apply op).net := by
  have wired := sound.wired
  have wired' := (sound.apply own).wired
  rw [Assembly.net_apply] at wired' ⊢
  have outcome := op.outcome coherent
  generalize exec op.run a.net = result at wired' outcome
  cases outcome with
  | refused e other => exact ⟨returned, fun start => List.prefix_rfl⟩
  | ruled tokenTypes =>
      have follows : ∀ start, followsOf { Fragment.withRule a.net with tokenTypes } start =
          a.net.followsOf start := followsOf_withRule a.net
      exact ⟨returned.withRule wired, callsKept_of_eq follows⟩
  | laid kinds added made laid =>
      have going := sound.going own laid
      have grown : Grown a.net (a.net.layout op.rule kinds added) kinds.length added :=
        layout_grown laid.inner going
      have kept : a.net.KeepsStops (a.net.layout op.rule kinds added) :=
        keepsStops_layout laid.inner going
      have grown := grown.withDecisions (decisionSlots a.net.states.size kinds)
      have follows := grown.followsOf_eq wired wired' laid.plain
      have stops := kept.trans (keepsStops_withDecisions (decisionSlots a.net.states.size kinds))
      exact ⟨returned.keep stops grown.rules follows,
        callsKept_of_eq follows⟩
  | called callee precedence boundary found =>
      have grown := Operation.grown_call wired found op.rule precedence
      have follows := grown.followsOf_call wired wired'
      have stops : a.net.KeepsStops (a.net.layout op.rule [.basic, .basic]
          (Fragment.callEdges a.net.states.size boundary callee precedence)) :=
        keepsStops_layout (by simp) (by simp [Fragment.callEdges])
      have entry := (Fragment.rule_eq_ok_iff.mp found).2
      refine ⟨returned.call coherent entry stops grown.rules follows, fun start => ?_⟩
      rw [follows]
      exact List.prefix_append _ _
  | modeRefused e name rules targets mode registered =>
      have follows : ∀ start, (a.net.pushEntry targets).followsOf start = a.net.followsOf start :=
        fun start => followsOf_congr (Array.size_push _) fun n => followsAt_pushEntry ..
      exact ⟨returned.keep (keepsStops_pushEntry targets) rfl follows,
        callsKept_of_eq follows⟩
  | moded name targets free registered =>
      have follows : ∀ start,
          ((a.net.pushEntry targets).withDecision a.net.states.size).followsOf start =
            a.net.followsOf start := fun start =>
        followsOf_congr (Array.size_modify.trans (Array.size_push _)) fun n => by
          rw [followsAt_withDecision, followsAt_pushEntry]
      have stops : a.net.KeepsStops ((a.net.pushEntry targets).withDecision a.net.states.size) :=
        (keepsStops_pushEntry targets).trans (keepsStops_withDecisions [a.net.states.size])
      exact ⟨returned.keep stops rfl follows,
        callsKept_of_eq follows⟩

end GrammarNet
