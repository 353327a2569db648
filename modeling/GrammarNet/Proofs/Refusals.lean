import GrammarNet.Proofs.Outcomes
import GrammarNet.Proofs.PredictionRuns
import GrammarNet.Proofs.QueryRuns
import GrammarNet.Proofs.References

/-!
What a refused step in building a network leaves behind.

Between the steps that build the network of a session, follow sets may be kept, call stacks made and
prediction automata filled in. Whatever was done before, a step that is refused leaves all of it as
it was: the checks of an operation come before its first change, and for an operation that changes
something first, nothing that is left to do can be refused. There is one exception, since a mode is
made with its entry before the rules are looked up. If the mode is refused, the entry stays, with
edges to starts of rules, and nothing refers to it (`Session.kept_of_refused`).

That nothing refers to it is because references are tied to live states, and this is kept by
operations on fragments as well (`Operation.attached`).
-/

namespace GrammarNet

open Build

/-! ### Operations on fragments keep references tied -/

namespace Network

variable {net : Network}

theorem attached_pushStates (net : Network) (rule : Int) (kinds : List StateKind) :
    net.Attached (net.pushStates rule kinds) := by
  induction kinds generalizing net with
  | nil => exact .refl net
  | cons kind kinds ih =>
      exact (attached_pushState net kind rule).trans (ih (net.pushState kind rule))

/-- New states are live. -/
theorem live_pushStates {rule : Int} {kinds : List StateKind} {n : Nat}
    (new : net.states.size ≤ n) (less : n < net.states.size + kinds.length) :
    (net.pushStates rule kinds).Live n := by
  obtain ⟨i, rfl⟩ := Nat.exists_eq_add_of_le new
  have inside : i < kinds.length := by omega
  exact live_of_get? (get?_pushStates (List.getElem?_eq_getElem inside))

theorem attached_addEdges {added : List (Nat × Transition)} (leads : ∀ e ∈ added, net.Leads e.2) :
    net.Attached (net.addEdges added) := by
  induction added generalizing net with
  | nil => exact .refl net
  | cons e added ih =>
      rw [List.forall_mem_cons] at leads
      have first := attached_addTransition e.1 leads.1
      exact first.trans (ih fun e' mem => (leads.2 e' mem).mono first.live)

theorem attached_layout {rule : Int} {kinds : List StateKind} {added : List (Nat × Transition)}
    (leads : ∀ e ∈ added, (net.pushStates rule kinds).Leads e.2) :
    net.Attached (net.layout rule kinds added) :=
  (attached_pushStates net rule kinds).trans (attached_addEdges leads)

theorem attached_withDecisions (net : Network) (slots : List Nat) :
    net.Attached (net.withDecisions slots) := by
  induction slots generalizing net with
  | nil => exact .refl net
  | cons n slots ih => exact (attached_withDecision net n).trans (ih (net.withDecision n))

theorem attached_withRule (net : Network) : net.Attached (Fragment.withRule net) := by
  have start := attached_pushState net .ruleStart net.rules.size
  have stop := attached_pushState (net.pushState .ruleStart net.rules.size) .ruleStop net.rules.size
  exact (start.trans stop).trans (attached_register ..)

theorem attached_pushEntry {targets : List Nat} (live : ∀ t ∈ targets, net.Live t) :
    net.Attached (net.pushEntry targets) := by
  have live' : ∀ n, net.Live n → (net.pushEntry targets).Live n := by
    intro n live
    rw [Live, get?_pushEntry]
    split
    · rfl
    · exact live
  refine ⟨live', fun _ mem => mem, fun n s' hs' t mem => ?_, fun n s' hs' stop known => ?_⟩
  · rw [get?_pushEntry] at hs'
    split at hs'
    · cases hs'
      obtain ⟨target, given, rfl⟩ := List.mem_map.mp mem
      exact .inr (leads_of_plain rfl (live' target (live target given)))
    · exact .inl ⟨s', hs', mem⟩
  · rw [get?_pushEntry] at hs'
    split at hs'
    · cases hs'
      cases known
    · exact .inl ⟨s', hs', known⟩

/-- The boundary of a rule is live. -/
theorem Coherent.live_boundary (coherent : net.Coherent) {r : Int} {rule : Rule}
    (found : net.rule r = .ok rule) : net.Live rule.start ∧ net.Live rule.stop :=
  coherent.live_rule (Array.mem_of_getElem? (Fragment.rule_eq_ok_iff.mp found).2)

theorem Coherent.live_targets (coherent : net.Coherent) {targets : List Nat}
    (registered : ∀ t ∈ targets, ∃ rule ∈ net.rules, rule.start = t) :
    ∀ t ∈ targets, net.Live t := by
  intro t mem
  obtain ⟨rule, here, rfl⟩ := registered t mem
  exact (coherent.live_rule here).1

end Network

open Network

variable {net : Network}

/-- What an operation on fragments makes is attached, when its fragments are made of live states. -/
theorem Operation.attached (coherent : net.Coherent) (op : Operation)
    (used : ∀ n ∈ op.uses.flatMap Fragment.ends, net.Live n) :
    net.Attached (exec op.run net).2 := by
  have outcome := op.outcome coherent
  generalize exec op.run net = result at outcome
  cases outcome with
  | refused e other => exact .refl net
  | ruled tokenTypes => exact (attached_withRule net).trans (attached_registries rfl rfl)
  | laid kinds added made laid =>
      have states := attached_pushStates net op.rule kinds
      refine (attached_layout fun e mem => ?_).trans (attached_withDecisions _ _)
      refine leads_of_plain (laid.plain e mem) ?_
      rcases laid.targets e mem with use | ⟨new, less⟩ | ⟨rule, found, stop⟩
      · exact states.live _ (used _ use)
      · exact live_pushStates new less
      · exact states.live _ (stop ▸ (coherent.live_boundary found).2)
  | called callee precedence boundary found =>
      have states := attached_pushStates net op.rule [.basic, .basic]
      have follow : (net.pushStates op.rule [.basic, .basic]).Live (net.states.size + 1) :=
        live_pushStates (by omega) (by simp)
      have call : (net.pushStates op.rule [.basic, .basic]).Attached
          (net.layout op.rule [.basic, .basic]
            (Fragment.callEdges net.states.size boundary callee precedence)) := by
        refine attached_addEdges fun e mem => ?_
        obtain rfl := List.mem_singleton.mp mem
        refine leads_iff.mpr ⟨states.live _ (coherent.live_boundary found).1, fun n goes => ?_⟩
        cases goes
        exact follow
      refine (states.trans call).trans (attached_addTransition boundary.stop ?_)
      exact leads_of_plain rfl (call.live _ follow)
  | modeRefused e name rules targets mode registered =>
      exact attached_pushEntry (coherent.live_targets registered)
  | moded name targets free registered =>
      have entry := attached_pushEntry (coherent.live_targets registered)
      exact (entry.trans (attached_withDecision _ _)).trans (attached_registries rfl rfl)

/-- A step that an operation on the network may take, or one on fragments made of live states. -/
def BuildStep.Admissible (net : Network) : BuildStep → Prop
  | network op => op.Admissible net
  | fragments op => ∀ n ∈ op.uses.flatMap Fragment.ends, net.Live n

instance (net : Network) (step : BuildStep) : Decidable (step.Admissible net) := by
  cases step <;> (unfold BuildStep.Admissible; infer_instance)

theorem Network.Tied.step (tied : net.Tied) {step : BuildStep} (admissible : step.Admissible net) :
    (step.apply net).Tied := by
  cases step with
  | network op => exact tied.apply admissible
  | fragments op =>
      exact tied.grow (Coherently.operation op net tied.coherent).1
        (op.attached tied.coherent admissible)

/-! ### Refused steps -/

/-- The error with which some work is refused. -/
def Build.refusal? {α : Type} (work : Build α) (net : Network) : Option NetworkError :=
  match (exec work net).1 with
  | .ok _ => none
  | .error e => some e

/-- The error with which a step is refused. -/
def BuildStep.refusal? (net : Network) : BuildStep → Option NetworkError
  | network op => Build.refusal? op.run net
  | fragments op => Build.refusal? op.run net

/-- An operation on a network is done, or it is refused and leaves the network as it was. -/
theorem Construction.done_or_refused (numbered : net.All fun n s => s.number = n)
    (op : Construction) :
    (exec op.run net).1 = .ok () ∨ ∃ e, exec op.run net = (.error e, net) := by
  cases op with
  | createState kind rule => exact .inl rfl
  | reserveSlot => exact .inl rfl
  | addEdge source target label plain => exact .inl rfl
  | addLexerAction action => exact .inl rfl
  | addCall source start follow precedence =>
      have looked : (exec (callTransition start follow precedence) net).2 = net := by
        rw [callTransition, exec_lookup]
      rw [run, exec_bind]
      generalize exec (callTransition start follow precedence) net = result at looked
      obtain ⟨e | call, net'⟩ := result
      · obtain rfl : net' = net := looked
        exact .inr ⟨e, rfl⟩
      · exact .inl rfl
  | removeState ref =>
      rcases removeState_cases ref net with refused | idle | ⟨n, -, removed, -⟩
      · exact .inr refused
      · exact .inl (by rw [run, idle])
      · exact .inl (by rw [run, removed])
  | defineRule start stop =>
      rcases defineRule_cases numbered start stop with
        ⟨e, refused⟩ | ⟨n, m, s, e, -, -, -, -, -, -, -, -, registered⟩
      · exact .inr ⟨e, by simp only [run, exec_bind, refused]⟩
      · exact .inl (by simp only [run, exec_bind, registered, exec_pure])
  | defineDecision state =>
      rcases defineDecision_cases numbered state with ⟨e, refused⟩ | ⟨n, s, -, -, -, -, registered⟩
      · exact .inr ⟨e, by simp only [run, exec_bind, refused]⟩
      · exact .inl (by simp only [run, exec_bind, registered, exec_pure])
  | defineMode name start =>
      rcases defineMode_cases numbered name start with
        ⟨e, refused⟩ | ⟨n, s, -, -, -, -, -, registered⟩
      · exact .inr ⟨e, by simp only [run, exec_bind, refused]⟩
      · exact .inl (by simp only [run, exec_bind, registered, exec_pure])
  | defineTokenType rule tokenType =>
      rw [run, Build.defineTokenType]
      split
      · exact .inr ⟨.negativeRule, rfl⟩
      · exact .inl rfl

namespace Network

/-- Something in the network refers to the slot. -/
inductive Mentions (net : Network) (n : Nat) : Prop where
  | edge {m : Nat} {s : State} {t : Transition} (hs : net.get? m = some s)
      (mem : t ∈ s.transitions) (reaches : t.target = n ∨ t.label.follow? = some n)
  | stop {m : Nat} {s : State} (hs : net.get? m = some s) (known : s.stop = some n)
  | rule {rule : Rule} (mem : rule ∈ net.rules) (bounds : rule.start = n ∨ rule.stop = n)
  | decision (mem : n ∈ net.decisions)
  | mode {mode : Mode} (mem : mode ∈ net.modes) (starts : mode.start = n)
  | decisionDfa {dfa : PredictionDfa} (mem : dfa ∈ net.decisionDfas)
      (state : dfa.networkState = some n)
  | modeDfa {dfa : PredictionDfa} (mem : dfa ∈ net.modeDfas) (state : dfa.networkState = some n)

theorem Anchored.live_of_mentions (anchored : net.Anchored) {n : Nat} (mentions : net.Mentions n) :
    net.Live n := by
  cases mentions with
  | edge hs mem reaches =>
      obtain ⟨target, follow⟩ := anchored.edges _ _ hs _ mem
      rcases reaches with rfl | goes
      · exact target
      · exact follow n goes
  | stop hs known => exact anchored.stops _ _ hs n known
  | rule mem bounds =>
      obtain ⟨start, stop⟩ := anchored.rules _ mem
      rcases bounds with rfl | rfl
      · exact start
      · exact stop
  | decision mem => exact anchored.decisions n mem
  | mode mem starts => exact starts ▸ anchored.modes _ mem
  | decisionDfa mem state =>
      obtain ⟨m, known, live⟩ := anchored.decisionDfas _ mem
      cases known.symm.trans state
      exact live
  | modeDfa mem state =>
      obtain ⟨m, known, live⟩ := anchored.modeDfas _ mem
      cases known.symm.trans state
      exact live

/-- Nothing refers to an entry that was just made. -/
theorem Anchored.not_mentions_pushEntry (anchored : net.Anchored) {targets : List Nat}
    (live : ∀ t ∈ targets, net.Live t) : ¬(net.pushEntry targets).Mentions net.states.size := by
  have absent : ¬net.Live net.states.size := by
    rw [Live, get?_of_size_le (Nat.le_refl _)]
    exact Bool.false_ne_true
  intro mentions
  refine absent ?_
  cases mentions with
  | edge hs mem reaches =>
      rw [get?_pushEntry] at hs
      split at hs
      · cases hs
        obtain ⟨target, given, rfl⟩ := List.mem_map.mp mem
        rcases reaches with here | goes
        · exact here ▸ live target given
        · cases goes
      · exact anchored.live_of_mentions (.edge hs mem reaches)
  | stop hs known =>
      rw [get?_pushEntry] at hs
      split at hs
      · cases hs
        cases known
      · exact anchored.live_of_mentions (.stop hs known)
  | rule mem bounds => exact anchored.live_of_mentions (.rule mem bounds)
  | decision mem => exact anchored.live_of_mentions (.decision mem)
  | mode mem starts => exact anchored.live_of_mentions (.mode mem starts)
  | decisionDfa mem state => exact anchored.live_of_mentions (.decisionDfa mem state)
  | modeDfa mem state => exact anchored.live_of_mentions (.modeDfa mem state)

/-- A refused step leaves the network as it was, but for the entry of a mode. -/
theorem Tied.apply_of_refused (tied : net.Tied) {step : BuildStep} {e : NetworkError}
    (refused : step.refusal? net = some e) :
    ((∀ name rules, step ≠ .fragments (.newMode name rules)) → step.apply net = net) ∧
      ∀ name rules, step = .fragments (.newMode name rules) → ∃ targets,
        step.apply net = net.pushEntry targets ∧
          (∀ t ∈ targets, ∃ rule ∈ net.rules, rule.start = t) ∧
          ¬(net.pushEntry targets).Mentions net.states.size := by
  cases step with
  | network op =>
      refine ⟨fun _ => ?_, by simp⟩
      rcases op.done_or_refused tied.coherent.numbered with done | ⟨e', kept⟩
      · simp [BuildStep.refusal?, Build.refusal?, done] at refused
      · rw [BuildStep.apply, Construction.apply, kept]
  | fragments op =>
      have outcome := op.outcome tied.coherent
      simp only [BuildStep.refusal?, Build.refusal?, BuildStep.apply] at refused ⊢
      generalize exec op.run net = result at outcome refused
      cases outcome with
      | refused e' other =>
          refine ⟨fun _ => rfl, fun name rules same => ?_⟩
          cases same
          exact absurd rfl (other name rules)
      | modeRefused e' name rules targets mode registered =>
          subst mode
          refine ⟨fun other => absurd rfl (other name rules), fun _ _ _ => ?_⟩
          have live := tied.coherent.live_targets registered
          exact ⟨targets, rfl, registered, tied.anchored.not_mentions_pushEntry live⟩
      | _ => cases refused

/-- The purposes of prediction automata are all that the registries know of them. -/
theorem Coherent.withDfas (coherent : net.Coherent) {decisionDfas modeDfas : Array PredictionDfa}
    (same : decisionDfas.map (·.purpose) = net.decisionDfas.map (·.purpose))
    (same' : modeDfas.map (·.purpose) = net.modeDfas.map (·.purpose)) :
    Coherent { net with decisionDfas, modeDfas } :=
  { coherent with
    decisionDfas := same.trans coherent.decisionDfas
    modeDfas := same'.trans coherent.modeDfas
    rules := fun r rule entry =>
      ⟨(coherent.rules r rule entry).start, (coherent.rules r rule entry).stop⟩ }

end Network

theorem DfaCall.purpose_exec (call : DfaCall) (dfa : PredictionDfa) :
    (call.exec dfa).purpose = dfa.purpose := by
  cases call with
  | add signature =>
      simp only [exec, PredictionDfa.add]
      split <;> rfl
  | setStart state =>
      simp only [exec, PredictionDfa.setStartIfAbsent]
      split <;> rfl
  | _ => rfl

/-! ### Reachable sessions -/

namespace Session

/-- The session after a step in building its network, which may have been refused. -/
def build (s : Session) (step : BuildStep) : Session :=
  { s with net := step.apply s.net }

/-- The session with a follow set for a state, unless there is one already. -/
def publish (s : Session) (n : Nat) (found : SymbolSet) : Session :=
  { s with memo := (s.memo.publish n found).2 }

/-- The session after a call on the prediction automaton of a decision. -/
def predict (s : Session) (d : Nat) (call : DfaCall) : Session :=
  { s with net.decisionDfas := s.net.decisionDfas.modify d call.exec }

/-- The session after a call on the prediction automaton of a mode. -/
def predictMode (s : Session) (m : Nat) (call : DfaCall) : Session :=
  { s with net.modeDfas := s.net.modeDfas.modify m call.exec }

/-- The sessions that there are when edges lead only from live states to live states. -/
inductive Reachable : Session → Prop where
  | start (grammar : GrammarKind) (maxSymbol : Int) : Reachable { net := { grammar, maxSymbol } }
  | build {s : Session} (step : BuildStep) :
      Reachable s → step.Admissible s.net → Reachable (s.build step)
  | query {s : Session} (query : Query) : Reachable s → Reachable (s.exec query)
  | publish {s : Session} {n : Nat} (found : SymbolSet) :
      Reachable s → s.net.Live n → Reachable (s.publish n found)
  | predict {s : Session} (d : Nat) (call : DfaCall) : Reachable s → Reachable (s.predict d call)
  | predictMode {s : Session} (m : Nat) (call : DfaCall) :
      Reachable s → Reachable (s.predictMode m call)

variable {s : Session}

theorem tied_predict (tied : s.net.Tied) (d : Nat) (call : DfaCall) :
    (s.predict d call).net.Tied := by
  have purposes := PredictionDfa.map_modify _ call.purpose_exec s.net.decisionDfas d
  exact tied.grow (tied.coherent.withDfas purposes rfl) (attached_registries rfl rfl)

theorem tied_predictMode (tied : s.net.Tied) (m : Nat) (call : DfaCall) :
    (s.predictMode m call).net.Tied := by
  have purposes := PredictionDfa.map_modify _ call.purpose_exec s.net.modeDfas m
  exact tied.grow (tied.coherent.withDfas rfl purposes) (attached_registries rfl rfl)

theorem Reachable.tied (reachable : s.Reachable) : s.net.Tied := by
  induction reachable with
  | start grammar maxSymbol => exact tied_start grammar maxSymbol
  | build step _ admissible ih => exact ih.step admissible
  | query query _ ih => cases query <;> exact ih
  | publish _ _ _ ih => exact ih
  | predict d call _ ih => exact tied_predict ih d call
  | predictMode m call _ ih => exact tied_predictMode ih m call

/-- In any reachable session, a step in building the network that is refused leaves everything as
it was: the states, all registries with the prediction automata, the follow sets and the call
stacks. Only a mode that is refused leaves its entry, to which nothing refers and whose edges lead
to starts of rules. -/
theorem kept_of_refused (reachable : s.Reachable) {step : BuildStep} {e : NetworkError}
    (refused : step.refusal? s.net = some e) :
    ((∀ name rules, step ≠ .fragments (.newMode name rules)) → s.build step = s) ∧
      ∀ name rules, step = .fragments (.newMode name rules) → ∃ targets,
        s.build step = { s with net := s.net.pushEntry targets } ∧
          (∀ t ∈ targets, ∃ rule ∈ s.net.rules, rule.start = t) ∧
          ¬(s.net.pushEntry targets).Mentions s.net.states.size := by
  obtain ⟨kept, left⟩ := reachable.tied.apply_of_refused refused
  refine ⟨fun other => ?_, fun name rules mode => ?_⟩
  · rw [build, kept other]
  · obtain ⟨targets, after, registered, alone⟩ := left name rules mode
    exact ⟨targets, by rw [build, after], registered, alone⟩

/-- A session with one rule and a mode for it, in which a follow set was asked for and the
prediction automaton of the mode has a state. -/
def oneMode : Session :=
  let start : Session := { net := { grammar := .lexer, maxSymbol := 9 } }
  let ops : List Operation :=
    [.newRule, .element 0 (.atom 3) rfl, .setRuleBody 0 ⟨2, 3⟩, .newMode "words" [0]]
  let built := ops.foldl (fun s op => s.build (.fragments op)) start
  (built.exec (.ask (.next 2))).predictMode 0 (.add [7])

/-- Here the start of the rule has to stay, and the name of the mode is taken. -/
theorem kept_of_refused_oneMode :
    let removal : BuildStep := .network (.removeState (some (.own 0)))
    let second : BuildStep := .fragments (.newMode "words" [0])
    oneMode.Reachable ∧ removal.refusal? oneMode.net = some (.stateIsBoundary 0) ∧
      oneMode.build removal = oneMode ∧
      second.refusal? oneMode.net = some (.modeDefined "words") ∧
      ∃ targets, oneMode.build second = { oneMode with net := oneMode.net.pushEntry targets } ∧
        ¬(oneMode.net.pushEntry targets).Mentions oneMode.net.states.size := by
  intro removal second
  have reachable : oneMode.Reachable := by
    refine .predictMode 0 _ (.query _ ?_)
    iterate 4 refine .build _ ?_ (by decide +kernel)
    exact .start .lexer 9
  have boundary : removal.refusal? oneMode.net = some (.stateIsBoundary 0) := by decide +kernel
  have taken : second.refusal? oneMode.net = some (.modeDefined "words") := by decide +kernel
  obtain ⟨targets, after, -, alone⟩ :=
    (kept_of_refused reachable taken).2 "words" [0] rfl
  have kept : oneMode.build removal = oneMode :=
    (kept_of_refused reachable boundary).1 (by simp [removal])
  exact ⟨reachable, boundary, kept, taken, targets, after, alone⟩

end Session

end GrammarNet
