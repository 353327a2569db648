import GrammarNet.Proofs.ReturnEdges
import Mathlib.Data.List.Nodup

/-!
Calls, returns and decisions of networks that are assembled from fragments.

A state that decides is registered by the operation that makes it. Only the entry of a mode that is
refused stays unregistered (`Assembly.abandoned`), and no later operation registers it. With the
calls and their returns, `Assembly.inStep_of_build` says what holds after any sequence of
operations.
-/

namespace GrammarNet

open Build

namespace Network

variable {net : Network} {n m : Nat}

/-! ### States that decide and are not registered -/

theorem Undecided.lt_size (undecided : net.Undecided n) : n < net.states.size := by
  obtain ⟨s, hs, -⟩ := undecided
  exact Lookahead.lt_size_of_get? hs

theorem undecided_modifyState {f : State → State} (number : ∀ s, (f s).number = s.number)
    (kind : ∀ s, (f s).kind = s.kind) (decision : ∀ s, (f s).decision = s.decision) :
    (net.modifyState m f).Undecided n ↔ net.Undecided n := by
  unfold Undecided
  rw [get?_modifyState]
  split
  · simp [number, kind, decision]
  · rfl

theorem undecided_addEdges (added : List (Nat × Transition)) :
    (net.addEdges added).Undecided n ↔ net.Undecided n := by
  induction added generalizing net with
  | nil => rfl
  | cons e added ih =>
      exact ih.trans (undecided_modifyState (fun _ => rfl) (fun _ => rfl) fun _ => rfl)

theorem undecided_pushState (kind : StateKind) (rule : Int) :
    (net.pushState kind rule).Undecided n ↔
      net.Undecided n ∨ kind.isDecision = true ∧ n = net.states.size := by
  have absent : net.get? net.states.size = none := get?_of_size_le (Nat.le_refl _)
  by_cases last : n = net.states.size
  · simp [Undecided, get?_pushState, last, absent]
  · simp [Undecided, get?_pushState, last]

theorem undecided_pushStates (rule : Int) (kinds : List StateKind) :
    (net.pushStates rule kinds).Undecided n ↔
      net.Undecided n ∨ n ∈ decisionSlots net.states.size kinds := by
  induction kinds generalizing net with
  | nil => simp [pushStates, decisionSlots]
  | cons kind kinds ih =>
      have rest : (net.pushStates rule (kind :: kinds)).Undecided n ↔
          (net.pushState kind rule).Undecided n ∨
            n ∈ decisionSlots (net.pushState kind rule).states.size kinds := ih
      rw [rest, undecided_pushState, size_pushState, decisionSlots]
      split
      · next decides => simp [decides, or_assoc]
      · next idle => simp [idle]

theorem le_of_mem_decisionSlots {base : Nat} {kinds : List StateKind}
    (mem : n ∈ decisionSlots base kinds) : base ≤ n := by
  induction kinds generalizing base with
  | nil => cases mem
  | cons kind kinds ih =>
      rw [decisionSlots] at mem
      split at mem
      · rcases List.mem_cons.mp mem with rfl | mem
        · exact Nat.le_refl _
        · exact Nat.le_of_succ_le (ih mem)
      · exact Nat.le_of_succ_le (ih mem)

theorem undecided_withDecision : (net.withDecision m).Undecided n ↔ n ≠ m ∧ net.Undecided n := by
  unfold Undecided
  rw [get?_withDecision]
  split
  · next here => simp [here]
  · next other => simp [Ne.symm other]

theorem undecided_withDecisions (slots : List Nat) :
    (net.withDecisions slots).Undecided n ↔ n ∉ slots ∧ net.Undecided n := by
  induction slots generalizing net with
  | nil => simp [withDecisions]
  | cons m slots ih =>
      have rest : (net.withDecisions (m :: slots)).Undecided n ↔
          n ∉ slots ∧ (net.withDecision m).Undecided n := ih
      rw [rest, undecided_withDecision, List.mem_cons, not_or]
      exact ⟨fun ⟨a, b, c⟩ => ⟨⟨b, a⟩, c⟩, fun ⟨⟨b, a⟩, c⟩ => ⟨a, b, c⟩⟩

/-- A layout registers exactly the states that it makes and that decide. -/
theorem undecided_laid (rule : Int) (kinds : List StateKind) (added : List (Nat × Transition)) :
    ((net.layout rule kinds added).withDecisions
      (decisionSlots net.states.size kinds)).Undecided n ↔ net.Undecided n := by
  rw [undecided_withDecisions, layout, undecided_addEdges, undecided_pushStates]
  constructor
  · rintro ⟨other, undecided | new⟩
    · exact undecided
    · exact absurd new other
  · intro undecided
    refine ⟨fun new => ?_, .inl undecided⟩
    exact Nat.not_lt_of_le (le_of_mem_decisionSlots new) undecided.lt_size

theorem undecided_withRule : (Fragment.withRule net).Undecided n ↔ net.Undecided n := by
  have absent : net.get? net.states.size = none := get?_of_size_le (Nat.le_refl _)
  have absent' : net.get? (net.states.size + 1) = none := get?_of_size_le (Nat.le_succ _)
  by_cases stop : n = net.states.size + 1
  · simp [Undecided, Fragment.get?_withRule, stop, absent', StateKind.isDecision]
  · by_cases start : n = net.states.size
    · simp [Undecided, Fragment.get?_withRule, start, absent, StateKind.isDecision]
    · simp [Undecided, Fragment.get?_withRule, stop, start]

theorem undecided_pushEntry (targets : List Nat) :
    (net.pushEntry targets).Undecided n ↔ net.Undecided n ∨ n = net.states.size := by
  by_cases last : n = net.states.size
  · simp [Undecided, get?_pushEntry, last, StateKind.isDecision]
  · simp [Undecided, get?_pushEntry, last]

end Network

/-! ### Sequences of operations -/

open Network

/-- The entry that a mode leaves behind when it is refused. -/
def Operation.abandons (op : Operation) (net : Network) : List Nat :=
  match (exec op.run net).1 with
  | .ok _ => []
  | .error _ =>
      match op with
      | newMode _ _ => [net.states.size]
      | _ => []

namespace Assembly

/-- The entries left behind by the modes that some operations could not register. -/
def abandoned (a : Assembly) : List Operation → List Nat
  | [] => []
  | op :: ops => op.abandons a.net ++ (a.apply op).abandoned ops

variable {a : Assembly} {op : Operation} {n : Nat}

/-- An operation registers the states that it makes and that decide, or it abandons one. -/
theorem undecided_apply (coherent : a.net.Coherent) :
    (a.apply op).net.Undecided n ↔ a.net.Undecided n ∨ n ∈ op.abandons a.net := by
  rw [net_apply]
  unfold Operation.abandons
  have outcome := op.outcome coherent
  generalize exec op.run a.net = result at outcome
  cases outcome with
  | refused e other =>
      cases op with
      | newMode name rules => exact absurd rfl (other name rules)
      | _ => simp
  | ruled tokenTypes =>
      refine undecided_withRule.trans ?_
      simp
  | laid kinds added made laid =>
      refine (undecided_laid op.rule kinds added).trans ?_
      simp
  | called callee precedence boundary found =>
      have laid : (a.net.layout op.rule [.basic, .basic]
          (Fragment.callEdges a.net.states.size boundary callee precedence)).Undecided n ↔
            a.net.Undecided n := by
        rw [layout, undecided_addEdges, undecided_pushStates]
        simp [decisionSlots, StateKind.isDecision]
      refine ((undecided_addEdges [(boundary.stop, .epsilon _)]).trans laid).trans ?_
      simp
  | modeRefused e name rules targets mode registered =>
      subst mode
      refine (undecided_pushEntry targets).trans ?_
      simp
  | moded name targets free registered =>
      refine undecided_withDecision.trans ?_
      rw [undecided_pushEntry]
      constructor
      · rintro ⟨other, undecided | new⟩
        · exact .inl undecided
        · exact absurd new other
      · rintro (undecided | new)
        · exact ⟨Nat.ne_of_lt undecided.lt_size, .inl undecided⟩
        · cases new

/-- What is abandoned is the entry of a mode. -/
theorem kindAt?_abandons (coherent : a.net.Coherent) (mem : n ∈ op.abandons a.net) :
    (a.apply op).net.kindAt? n = some .tokenStart := by
  rw [net_apply]
  unfold Operation.abandons at mem
  have outcome := op.outcome coherent
  generalize exec op.run a.net = result at outcome mem
  cases outcome with
  | refused e other =>
      cases op with
      | newMode name rules => exact absurd rfl (other name rules)
      | _ => cases mem
  | modeRefused e name rules targets mode registered =>
      subst mode
      obtain rfl := List.mem_singleton.mp mem
      exact Option.map_eq_some_iff.mpr ⟨_, (get?_pushEntry ..).trans (if_pos rfl), rfl⟩
  | _ => cases mem

theorem coherent_apply (coherent : a.net.Coherent) (op : Operation) :
    (a.apply op).net.Coherent ∧ a.net.Kept (a.apply op).net := by
  rw [net_apply]
  exact Coherently.operation op a.net coherent

theorem coherent_build (coherent : a.net.Coherent) (ops : List Operation) :
    (a.build ops).net.Coherent ∧ a.net.Kept (a.build ops).net := by
  induction ops generalizing a with
  | nil => exact ⟨coherent, .refl a.net⟩
  | cons op ops ih =>
      obtain ⟨next, first⟩ := coherent_apply coherent op
      obtain ⟨last, rest⟩ := ih next
      exact ⟨last, first.trans rest⟩

theorem undecided_build (coherent : a.net.Coherent) (ops : List Operation) :
    (a.build ops).net.Undecided n ↔ a.net.Undecided n ∨ n ∈ a.abandoned ops := by
  induction ops generalizing a with
  | nil => simp [build, abandoned]
  | cons op ops ih =>
      rw [build, ih (coherent_apply coherent op).1, undecided_apply coherent, abandoned,
        List.mem_append, or_assoc]

/-- An entry that was abandoned stays what it is. -/
theorem kindAt?_abandoned (coherent : a.net.Coherent) {ops : List Operation}
    (mem : n ∈ a.abandoned ops) : (a.build ops).net.kindAt? n = some .tokenStart := by
  induction ops generalizing a with
  | nil => cases mem
  | cons op ops ih =>
      obtain ⟨coherent', -⟩ := coherent_apply coherent op
      rcases List.mem_append.mp mem with here | later
      · have undecided := (undecided_apply coherent).mpr (.inr here)
        obtain ⟨s', hs', -⟩ := (undecided_build coherent' ops).mpr (.inl undecided)
        obtain ⟨s, hs, kind, -⟩ :=
          (coherent_build coherent' ops).2.states n s' undecided.lt_size hs'
        obtain ⟨s₀, hs₀, entry⟩ := Option.map_eq_some_iff.mp (kindAt?_abandons coherent here)
        obtain rfl : s = s₀ := Option.some.inj (hs.symm.trans hs₀)
        exact Option.map_eq_some_iff.mpr ⟨s', hs', kind.trans entry⟩
      · exact ih coherent' later

theorem build_append (before after : List Operation) :
    a.build (before ++ after) = (a.build before).build after := by
  induction before generalizing a with
  | nil => rfl
  | cons op before ih => exact ih

theorem owns_append {before after : List Operation} :
    a.Owns (before ++ after) ↔ a.Owns before ∧ (a.build before).Owns after := by
  induction before generalizing a with
  | nil => exact (and_iff_right trivial).symm
  | cons op before ih => exact (and_congr_right' ih).trans and_assoc.symm

end Assembly

theorem Assembled.returned_build {a : Assembly} (assembled : Assembled a)
    (returned : a.net.Returned) {ops : List Operation} (owns : a.Owns ops) :
    (a.build ops).net.Returned ∧ a.net.CallsKept (a.build ops).net := by
  induction ops generalizing a with
  | nil => exact ⟨returned, fun start => List.prefix_rfl⟩
  | cons op ops ih =>
      obtain ⟨next, first⟩ := assembled.sound.returned_apply assembled.coherent returned owns.1
      obtain ⟨last, rest⟩ := ih (assembled.apply op owns.1) next owns.2
      exact ⟨last, fun start => (first start).trans (rest start)⟩

/-! ### Networks in step -/

/-- Calls, returns and decisions are in step, where some entries of modes were abandoned. -/
structure Network.InStep (net : Network) (abandoned : List Nat) : Prop where
  /-- The end of a rule has one edge to each state at which a call of the rule goes on. -/
  returns : ∀ (r : Nat) rule, net.rules[r]? = some rule →
    ∃ e, net.get? rule.stop = some e ∧ e.kind = .ruleStop ∧
      e.transitions = (net.followsOf rule.start).map .epsilon
  /-- A call leads to the start of the rule that it names and goes on in its own rule. -/
  calls : net.All fun _ s => ∀ t ∈ s.transitions, ∀ follow callee precedence,
    t.label = .call follow callee precedence →
      net.startOf? callee = some t.target ∧ net.ruleAt? follow = some s.rule
  /-- Any other edge of a rule, its returns apart, stays in the rule. -/
  stays : net.All fun _ s => s.kind ≠ .ruleStop → s.kind ≠ .tokenStart →
    ∀ t ∈ s.transitions, t.label.follow? = none → net.ruleAt? t.target = some s.rule
  /-- A state that decides is registered once, unless it was abandoned. -/
  decisions : net.All fun n s => s.kind.isDecision = true →
    net.decisions.count n = if n ∈ abandoned then 0 else 1
  entries : ∀ n ∈ abandoned, net.kindAt? n = some .tokenStart

namespace Network

variable {net : Network}

/-- A decision has one number. -/
theorem Coherent.nodup_decisions (coherent : net.Coherent) : net.decisions.toList.Nodup := by
  refine List.pairwise_iff_getElem.mpr fun d d' bound bound' lt same => ?_
  have at' : net.decisions[d]? = some net.decisions.toList[d] := by simp
  have at'' : net.decisions[d']? = some net.decisions.toList[d] := by
    rw [same]
    simp
  obtain ⟨s, hs, decision⟩ := (coherent.decision_iff d _).mp at'
  obtain ⟨s', hs', decision'⟩ := (coherent.decision_iff d' _).mp at''
  cases hs.symm.trans hs'
  rw [decision] at decision'
  exact Nat.ne_of_lt lt (Option.some.inj decision')

/-- A state is registered once when it carries a number, else not at all. -/
theorem Coherent.count_decisions (coherent : net.Coherent) {n : Nat} {s : State}
    (hs : net.get? n = some s) :
    net.decisions.count n = if s.decision.isSome then 1 else 0 := by
  rw [← Array.count_toList]
  split
  · next some =>
      obtain ⟨d, decision⟩ := Option.isSome_iff_exists.mp some
      have entry := (coherent.decision_iff d n).mpr ⟨s, hs, decision⟩
      have mem : n ∈ net.decisions.toList := (Array.mem_of_getElem? entry).val
      exact List.nodup_iff_count_eq_one.mp coherent.nodup_decisions n mem
  · next none =>
      refine List.count_eq_zero.mpr fun mem => none ?_
      obtain ⟨d, entry⟩ := List.getElem?_of_mem mem
      obtain ⟨s', hs', decision⟩ := (coherent.decision_iff d n).mp (by simpa using entry)
      cases hs.symm.trans hs'
      rw [decision]
      rfl

/-- Without modes left behind, a wired network whose ends of rules return is in step. -/
theorem inStep_of_wired (wired : net.Wired) (coherent : net.Coherent) (returned : net.Returned)
    {abandoned : List Nat} (undecided : ∀ n, net.Undecided n ↔ n ∈ abandoned)
    (entries : ∀ n ∈ abandoned, net.kindAt? n = some .tokenStart) : net.InStep abandoned where
  returns := by
    intro r rule entry
    obtain ⟨e, he, stop, number⟩ := (coherent.rules r rule entry).stop
    obtain ⟨r', rule', entry', here, edges⟩ := returned rule.stop e he stop
    obtain rfl := coherent.rule_unique entry entry' (.inr here.symm)
    exact ⟨e, he, stop, edges⟩
  calls := by
    intro n s hs t mem follow callee precedence label
    have inner := wired.kind_of_call hs mem label
    obtain ⟨starts, -, -, there⟩ := wired.ruleClosed.call hs inner mem label
    exact ⟨starts, there⟩
  stays := fun n s hs stop entry t mem plain => wired.ruleClosed.stay hs stop entry mem plain
  decisions := by
    intro n s hs decides
    have iff : n ∈ abandoned ↔ s.decision = none := by
      rw [← undecided n]
      constructor
      · rintro ⟨s', hs', -, -, free⟩
        cases hs.symm.trans hs'
        exact free
      · exact fun free => ⟨s, hs, coherent.numbered n s hs, decides, free⟩
    rw [coherent.count_decisions hs]
    cases decision : s.decision <;> simp [iff, decision]
  entries := entries

end Network

/-- After any operations on fragments that use each fragment in the rule it was made for, whether
they succeed or are refused, calls, returns and decisions are in step. The calls that there were
after some of the operations come first among all calls. -/
theorem Assembly.inStep_of_build (grammar : GrammarKind) (maxSymbol : Int) {ops : List Operation}
    (owns : Owns { net := { grammar, maxSymbol } } ops) :
    let start : Assembly := { net := { grammar, maxSymbol } }
    (start.build ops).net.InStep (start.abandoned ops) ∧
      ∀ before after, ops = before ++ after →
        (start.build before).net.CallsKept (start.build ops).net := by
  intro start
  have assembled : Assembled start := .start grammar maxSymbol
  have coherent : start.net.Coherent := assembled.coherent
  have returned : start.net.Returned := fun n e he => by simp [start, get?] at he
  have decided : ∀ n, ¬start.net.Undecided n := fun n undecided =>
    Nat.not_lt_zero n undecided.lt_size
  constructor
  · have last := assembled.build owns
    have returned' := (assembled.returned_build returned owns).1
    refine inStep_of_wired last.sound.wired last.coherent returned' (fun n => ?_) fun n mem => ?_
    · rw [undecided_build coherent]
      exact or_iff_right (decided n)
    · exact kindAt?_abandoned coherent mem
  · rintro before after rfl
    rw [build_append]
    obtain ⟨owns, owns'⟩ := owns_append.mp owns
    have returned' := (assembled.returned_build returned owns).1
    exact ((assembled.build owns).returned_build returned' owns').2

/-- Two rules that call each other, with a call of a rule that does not exist and two modes of one
name. -/
def mutualCalls : List Operation :=
  [.newRule, .newRule, .element 0 (.atom 8) rfl, .ruleRef 0 1 0, .ruleRef 1 0 0, .ruleRef 0 9 0,
    .sequence 0 [⟨4, 5⟩, ⟨6, 7⟩], .setRuleBody 0 ⟨4, 7⟩, .setRuleBody 1 ⟨8, 9⟩,
    .newMode "words" [0], .newMode "words" [1]]

/-- The second mode leaves its entry behind. -/
theorem Assembly.inStep_of_build_mutualCalls :
    let start : Assembly := { net := { grammar := .parser, maxSymbol := 9 } }
    start.Owns mutualCalls ∧ start.abandoned mutualCalls = [11] ∧
      (start.build mutualCalls).net.InStep [11] ∧
      ∀ before after, mutualCalls = before ++ after →
        (start.build before).net.CallsKept (start.build mutualCalls).net := by
  intro start
  have owns : start.Owns mutualCalls := by decide +kernel
  have left : start.abandoned mutualCalls = [11] := by decide +kernel
  obtain ⟨inStep, kept⟩ := inStep_of_build .parser 9 owns
  exact ⟨owns, left, left ▸ inStep, kept⟩

end GrammarNet
