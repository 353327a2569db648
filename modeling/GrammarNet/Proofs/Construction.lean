import GrammarNet.Proofs.Assembly

/-!
Operations on a network itself, and what they can do.

A network is built by such operations (`Construction`) and by operations on fragments (`Operation`).
For each operation that may be refused there is one lemma that lists its outcomes:
`removeState_cases`, `defineRule_cases`, `defineDecision_cases` and `defineMode_cases`. A refusal
leaves the network as it was, and where the operation succeeds, the network afterwards is given as
`Network.without`, `Fragment.register`, `Network.withDecision` or `Network.withMode`.
-/

namespace GrammarNet

open Build

/-- An operation on a network itself. -/
inductive Construction where
  | createState (kind : StateKind) (rule : Int)
  | reserveSlot
  /-- Any edge but a call. -/
  | addEdge (source target : Nat) (label : Label) (plain : label.follow? = none)
  | addCall (source : Nat) (start follow : Option Nat) (precedence : Int)
  | removeState (state : Option StateRef)
  | defineRule (start stop : Option Nat)
  | defineDecision (state : Option Nat)
  | defineMode (name : String) (start : Option Nat)
  | defineTokenType (rule tokenType : Int)
  | addLexerAction (action : LexerAction)

namespace Construction

/-- Runs an operation. -/
def run : Construction → Build Unit
  | createState kind rule => do
      let _ ← Build.createState kind rule
      pure ()
  | reserveSlot => do
      let _ ← Build.reserveSlot
      pure ()
  | addEdge source target label _ => Build.addTransition source ⟨target, label⟩
  | addCall source start follow precedence => do
      let call ← Build.callTransition start follow precedence
      Build.addTransition source call
  | removeState state => Build.removeState state
  | defineRule start stop => do
      let _ ← Build.defineRule start stop
      pure ()
  | defineDecision state => do
      let _ ← Build.defineDecision state
      pure ()
  | defineMode name start => do
      let _ ← Build.defineMode name start
      pure ()
  | defineTokenType rule tokenType => Build.defineTokenType rule tokenType
  | addLexerAction action => do
      let _ ← Build.addLexerAction action
      pure ()

/-- The network after an operation, which may have been refused. -/
def apply (op : Construction) (net : Network) : Network :=
  (exec op.run net).2

end Construction

/-- A step in building a network. -/
inductive BuildStep where
  | network (op : Construction)
  | fragments (op : Operation)

/-- The network after a step, which may have been refused. -/
def BuildStep.apply : BuildStep → Network → Network
  | network op, net => op.apply net
  | fragments op, net => (exec op.run net).2

/-- The network after some steps. -/
def Network.build (net : Network) (steps : List BuildStep) : Network :=
  steps.foldl (fun net step => step.apply net) net

/-! ### Networks after an operation -/

namespace Network

variable {net : Network}

/-- The network without a state. -/
def without (net : Network) (n : Nat) : Network :=
  { net with states := net.states.modify n fun _ => none }

theorem get?_without (net : Network) (n m : Nat) :
    (net.without n).get? m = if n = m then none else net.get? m := by
  simp only [get?, without, Array.getElem?_modify]
  split
  · cases net.states[m]? <;> rfl
  · rfl

/-- The network with a state as the next decision. -/
def withDecision (net : Network) (n : Nat) : Network :=
  { net.modifyState n fun s => { s with decision := some net.decisions.size } with
    decisions := net.decisions.push n
    decisionDfas := net.decisionDfas.push { networkState := some n, number := net.decisions.size } }

theorem get?_withDecision (net : Network) (n m : Nat) :
    (net.withDecision n).get? m =
      if n = m then (net.get? m).map fun s => { s with decision := some net.decisions.size }
      else net.get? m :=
  net.get?_modifyState n m _

/-- What was a state is one afterwards, up to the decision. -/
theorem get?_withDecision_of_some {n m : Nat} {s : State} (hs : net.get? m = some s) :
    (net.withDecision n).get? m =
      some (if n = m then { s with decision := some net.decisions.size } else s) := by
  rw [get?_withDecision, hs]
  split <;> rfl

theorem exists_of_get?_withDecision {n m : Nat} {s' : State}
    (hs' : (net.withDecision n).get? m = some s') :
    ∃ s, net.get? m = some s ∧
      s' = if n = m then { s with decision := some net.decisions.size } else s := by
  rw [get?_withDecision] at hs'
  split at hs'
  · next here =>
      obtain ⟨s, hs, rfl⟩ := Option.map_eq_some_iff.mp hs'
      exact ⟨s, hs, by rw [if_pos here]⟩
  · next other => exact ⟨s', hs', by rw [if_neg other]⟩

/-- The network with a state as the start of the next mode. -/
def withMode (net : Network) (name : String) (n : Nat) : Network :=
  { net with
    modes := net.modes.push { name, start := n }
    modeDfas := net.modeDfas.push { networkState := some n, number := net.modes.size } }

theorem modeStartNamed?_withMode (net : Network) (name other : String) (n : Nat) :
    (net.withMode name n).modeStartNamed? other =
      (net.modeStartNamed? other).or (if name = other then some n else none) := by
  simp only [modeStartNamed?, withMode, Array.find?_push]
  cases net.modes.find? (·.name == other) <;> by_cases same : name = other <;> simp [same]

end Network

/-! ### What an operation can do -/

namespace Build

/-- A removal is refused, or it has no state of the network to remove, or it removes a state that
is no decision and no boundary and to which no other state leads. -/
theorem removeState_cases (ref : Option StateRef) (net : Network) :
    (∃ e, exec (removeState ref) net = (.error e, net)) ∨
      exec (removeState ref) net = (.ok (), net) ∨
      ∃ n, ref = some (.own n) ∧ exec (removeState ref) net = (.ok (), net.without n) ∧
        ∀ s, net.get? n = some s →
          s.decision = none ∧ net.isBoundary n = false ∧ net.sourceOf? n = none := by
  match ref with
  | none | some (.foreign _) => exact .inr (.inl rfl)
  | some (.own n) =>
      simp only [removeState, exec_bind, exec_lookup]
      cases hs : net.get? n with
      | none => exact .inr (.inr ⟨n, rfl, rfl, fun s h => by cases hs.symm.trans h⟩)
      | some s =>
          cases decision : s.decision with
          | some d =>
              refine .inl ⟨.stateIsDecision n d, ?_⟩
              simp only [decision]
          | none =>
              cases inner : net.isBoundary n with
              | true =>
                  refine .inl ⟨.stateIsBoundary n, ?_⟩
                  simp only [decision, if_true]
              | false =>
                  cases source : net.sourceOf? n with
                  | some m =>
                      refine .inl ⟨.stateIsReached n m, ?_⟩
                      simp only [decision, Bool.false_eq_true, if_false]
                  | none =>
                      refine .inr (.inr ⟨n, rfl, ?_, fun s' hs' => ?_⟩)
                      · simp only [decision, Bool.false_eq_true, if_false]
                        rfl
                      · cases hs.symm.trans hs'
                        exact ⟨decision, inner, source⟩

variable {net : Network}

/-- The definition of a rule is refused, or it registers two states that carry its number. -/
theorem defineRule_cases (numbered : net.All fun n s => s.number = n) (start stop : Option Nat) :
    (∃ e, exec (defineRule start stop) net = (.error e, net)) ∨
      ∃ n m s e, start = some n ∧ stop = some m ∧ net.get? n = some s ∧ net.get? m = some e ∧
        s.kind = .ruleStart ∧ e.kind = .ruleStop ∧ s.rule = net.rules.size ∧
        e.rule = net.rules.size ∧
        exec (defineRule start stop) net = (.ok net.rules.size, Fragment.register net n m) := by
  unfold defineRule
  rw [exec_bind, exec_lookup]
  cases hs : start.bind net.get? with
  | none => exact .inl ⟨_, rfl⟩
  | some s =>
      cases he : stop.bind net.get? with
      | none => exact .inl ⟨_, rfl⟩
      | some e =>
          obtain ⟨n, rfl, hs⟩ := Option.bind_eq_some_iff.mp hs
          obtain ⟨m, rfl, he⟩ := Option.bind_eq_some_iff.mp he
          by_cases kinds : s.kind = .ruleStart ∧ e.kind = .ruleStop
          · by_cases numbers : s.rule = net.rules.size ∧ e.rule = net.rules.size
            · refine .inr ⟨n, m, s, e, rfl, rfl, hs, he, kinds.1, kinds.2, numbers.1, numbers.2, ?_⟩
              simp only [if_pos kinds, if_pos numbers, numbered n s hs, numbered m e he]
              rfl
            · exact .inl ⟨_, by simp only [if_pos kinds, if_neg numbers]; rfl⟩
          · exact .inl ⟨_, by simp only [if_neg kinds]; rfl⟩

theorem exec_defineDecision {n : Nat} {s : State} (hs : net.get? n = some s) (number : s.number = n)
    (kind : s.kind.isDecision = true) (fresh : s.decision = none) :
    exec (defineDecision (some n)) net = (.ok net.decisions.size, net.withDecision n) := by
  unfold defineDecision
  rw [exec_bind, exec_lookup]
  simp only [Option.bind_some, hs, if_pos kind, fresh, number]
  rfl

/-- The definition of a decision is refused, or it registers a state that is none yet. -/
theorem defineDecision_cases (numbered : net.All fun n s => s.number = n) (state : Option Nat) :
    (∃ e, exec (defineDecision state) net = (.error e, net)) ∨
      ∃ n s, state = some n ∧ net.get? n = some s ∧ s.kind.isDecision = true ∧ s.decision = none ∧
        exec (defineDecision state) net = (.ok net.decisions.size, net.withDecision n) := by
  cases hs : state.bind net.get? with
  | none =>
      refine .inl ⟨.notDecidable, ?_⟩
      simp [defineDecision, hs]
  | some s =>
      obtain ⟨n, rfl, hs'⟩ := Option.bind_eq_some_iff.mp hs
      by_cases kind : s.kind.isDecision = true
      · cases decision : s.decision with
        | some d =>
            refine .inl ⟨.alreadyDecision d, ?_⟩
            simp [defineDecision, hs', kind, decision]
        | none =>
            exact .inr ⟨n, s, rfl, hs', kind, decision,
              exec_defineDecision hs' (numbered n s hs') kind decision⟩
      · refine .inl ⟨.notDecidable, ?_⟩
        simp [defineDecision, hs', kind]

/-- The definition of a mode is refused, or it registers a state that is no decision yet as the
start of the mode and as a decision. -/
theorem defineMode_cases (numbered : net.All fun n s => s.number = n) (name : String)
    (start : Option Nat) :
    (∃ e, exec (defineMode name start) net = (.error e, net)) ∨
      ∃ n s, start = some n ∧ net.get? n = some s ∧ s.kind = .tokenStart ∧ s.decision = none ∧
        net.modeStartNamed? name = none ∧
        exec (defineMode name start) net =
          (.ok net.modes.size, (net.withDecision n).withMode name n) := by
  cases hs : start.bind net.get? with
  | none =>
      refine .inl ⟨.modeStartKind name, ?_⟩
      simp [defineMode, hs]
  | some s =>
      obtain ⟨n, rfl, hs'⟩ := Option.bind_eq_some_iff.mp hs
      by_cases kind : s.kind = .tokenStart
      · by_cases taken : (net.modeStartNamed? name).isSome || s.decision.isSome
        · refine .inl ⟨.modeDefined name, ?_⟩
          unfold defineMode
          simp only [exec_bind, exec_lookup, Option.bind_some, hs', if_pos kind, if_pos taken]
        · obtain ⟨free, decision⟩ : net.modeStartNamed? name = none ∧ s.decision = none := by
            simpa using taken
          refine .inr ⟨n, s, rfl, hs', kind, decision, free, ?_⟩
          have registered : exec (defineDecision (some n)) (net.withMode name n) =
              (.ok net.decisions.size, (net.withMode name n).withDecision n) :=
            exec_defineDecision hs' (numbered n s hs') (by rw [kind]; rfl) decision
          unfold Network.withMode at registered
          unfold defineMode
          simp only [exec_bind, exec_lookup, Option.bind_some, hs', if_pos kind, free, decision,
            numbered n s hs', Option.isSome_none, Bool.or_self, Bool.false_eq_true, if_false,
            exec_modify, exec_pure, registered]
          rfl
      · refine .inl ⟨.modeStartKind name, ?_⟩
        simp [defineMode, hs', kind]

end Build

end GrammarNet
