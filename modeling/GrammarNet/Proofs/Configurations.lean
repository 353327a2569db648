import GrammarNet.Proofs.RuleClosed

/-!
What can follow a state, said without a walk.

A configuration is a state with a context: the states to return to after the calls made so far, above
a node of a stack graph. `Step` are the steps that consume nothing. A call is always possible, also
when the rule is being run already, and at the end of a rule every way to return is possible.

A walk takes only such steps (`Moves.step`), and what it records is an edge that consumes the symbol
or the end of the last context (`emits_iff`). So all that it finds can follow.
-/

namespace GrammarNet

/-- The rule that a label calls. -/
def Label.callee? : Label → Option Int
  | call _ rule _ => some rule
  | _ => none

namespace Network

/-- An edge leads from one state to the other, consuming nothing and entering no rule. -/
def Silent (net : Network) (n m : Nat) : Prop :=
  ∃ s t, net.get? n = some s ∧ s.kind ≠ .ruleStop ∧ t ∈ s.transitions ∧
    t.label.isSilent = true ∧ t.target = m

/-- A state has a call of the rule, which starts at `start`, and goes on at `follow`. -/
def Invokes (net : Network) (n : Nat) (rule : Int) (start follow : Nat) : Prop :=
  ∃ s t level, net.get? n = some s ∧ s.kind ≠ .ruleStop ∧ t ∈ s.transitions ∧
    t.label = .call follow rule level ∧ t.target = start

/-- The state is the end of a rule. -/
def AtStop (net : Network) (n : Nat) : Prop :=
  ∃ s, net.get? n = some s ∧ s.kind = .ruleStop

/-- An edge of the state consumes the symbol. -/
def Consumes (net : Network) (n : Nat) (x : Int) : Prop :=
  ∃ s t, net.get? n = some s ∧ s.kind ≠ .ruleStop ∧ t ∈ s.transitions ∧
    t.label.accepts Symbol.firstUser net.maxSymbol x = true

/-- In a rule-closed network the calls of a rule lead to the same state. -/
theorem RuleClosed.startOf?_of_invokes {net : Network} (closed : net.RuleClosed) {n start follow : Nat}
    {rule : Int} (call : net.Invokes n rule start follow) : net.startOf? rule = some start := by
  obtain ⟨s, t, level, hs, kind, mem, label, rfl⟩ := call
  exact (closed.call hs kind mem label).1

end Network

namespace Lookahead

/-- A state with a context: the states to return to, last call first, above a node. -/
structure Config where
  state : Nat
  returns : List Nat := []
  base : Nat

variable (net : Network) (graph : StackGraph)

/-- A step that consumes nothing. Only the end of a rule returns, and it does nothing else. -/
inductive Step : Config → Config → Prop where
  | silent {n m : Nat} {returns : List Nat} {base : Nat} :
      net.Silent n m → Step ⟨n, returns, base⟩ ⟨m, returns, base⟩
  | call {n start follow : Nat} {rule : Int} {returns : List Nat} {base : Nat} :
      net.Invokes n rule start follow → Step ⟨n, returns, base⟩ ⟨start, follow :: returns, base⟩
  | back {n follow : Nat} {returns : List Nat} {base : Nat} :
      net.AtStop n → Step ⟨n, follow :: returns, base⟩ ⟨follow, returns, base⟩
  | drop {n base caller : Nat} {r : Int} :
      net.AtStop n → .call r caller ∈ graph.entries base →
      Step ⟨n, [], base⟩ ⟨r.toNat, [], caller⟩

/-- Any number of steps that consume nothing. -/
abbrev Steps : Config → Config → Prop :=
  Relation.ReflTransGen (Step net graph)

/-- The outermost rule ends in the configuration. -/
def EndsAt (c : Config) : Prop :=
  net.AtStop c.state ∧ c.returns = [] ∧ .ended ∈ graph.entries c.base

/-- The rule that starts at `start` can end without consuming a symbol. -/
def Nullable (start : Nat) : Prop :=
  ∃ n, Steps net .empty ⟨start, [], StackGraph.root⟩ ⟨n, [], StackGraph.root⟩ ∧ net.AtStop n

/-- The rule can get to a call of itself, at any depth of calls, without consuming a symbol. -/
def LeftRecursive (rule : Int) (start : Nat) : Prop :=
  ∃ n returns start' follow,
    Steps net .empty ⟨start, [], StackGraph.root⟩ ⟨n, returns, StackGraph.root⟩ ∧
      net.Invokes n rule start' follow

/-! ### States that steps cannot leave -/

/-- Edges that consume nothing lead from the listed states to listed states, and calls go on at
listed states. -/
def Confined (net : Network) (states : List Nat) : Prop :=
  net.All fun n s => n ∈ states → ∀ t ∈ s.transitions, t.label.isEpsilon = true →
    t.target ∈ states ∧ ∀ follow ∈ t.label.follow?.toList, follow ∈ states

instance (net : Network) (states : List Nat) : Decidable (Confined net states) :=
  inferInstanceAs (Decidable (net.All _))

variable {net graph} {states : List Nat} {start : Nat} {c : Config}

/-- Steps from a listed state with nothing to return to stay in the listed states. -/
theorem Confined.steps (confined : Confined net states) (mem : start ∈ states)
    (steps : Steps net .empty ⟨start, [], StackGraph.root⟩ c) :
    c.base = StackGraph.root ∧ c.state ∈ states ∧ ∀ follow ∈ c.returns, follow ∈ states := by
  induction steps with
  | refl => exact ⟨rfl, mem, by simp⟩
  | tail _ step ih =>
      obtain ⟨root, at', back⟩ := ih
      cases step with
      | silent silent =>
          obtain ⟨s, t, hs, -, ht, quiet, rfl⟩ := silent
          have passed : t.label.isEpsilon = true := by
            cases hl : t.label <;> simp_all [Label.isSilent, Label.isEpsilon]
          exact ⟨root, (confined _ s hs at' t ht passed).1, back⟩
      | call call =>
          obtain ⟨s, t, level, hs, -, ht, label, rfl⟩ := call
          obtain ⟨target, follows⟩ := confined _ s hs at' t ht (by rw [label]; rfl)
          refine ⟨root, target, fun follow hf => ?_⟩
          rcases List.mem_cons.mp hf with rfl | hf
          · exact follows _ (by simp [label, Label.follow?])
          · exact back follow hf
      | back _ =>
          exact ⟨root, back _ List.mem_cons_self, fun f hf => back f (List.mem_cons_of_mem _ hf)⟩
      | drop _ entry =>
          simp only at root
          subst root
          exact absurd entry StackGraph.call_notMem_root

/-- A rule whose end is not among the listed states consumes something. -/
theorem Confined.not_nullable (confined : Confined net states) (mem : start ∈ states)
    (endless : net.All fun n s => n ∈ states → s.kind ≠ .ruleStop) : ¬ Nullable net start := by
  rintro ⟨n, steps, s, hs, kind⟩
  exact endless n s hs (confined.steps mem steps).2.1 kind

/-- A rule that is not called in the listed states does not call itself on the left. -/
theorem Confined.not_leftRecursive {rule : Int} (confined : Confined net states)
    (mem : start ∈ states)
    (uncalled : net.All fun n s => n ∈ states → ∀ t ∈ s.transitions, t.label.callee? ≠ some rule) :
    ¬ LeftRecursive net rule start := by
  rintro ⟨n, returns, start', follow, steps, s, t, level, hs, -, ht, label, -⟩
  exact uncalled n s hs (confined.steps mem steps).2.1 t ht (by rw [label]; rfl)

/-! ### A walk takes steps -/

/-- The configuration of a position. -/
def Position.config (p : Position) : Config :=
  ⟨p.state, p.stack.calls.map (·.returnTo), p.stack.base⟩

variable {ground : Ground}

theorem Crosses.step {n i : Nat} {s : State} {t : Transition} {stack : CallStack} {q : Position}
    (hs : net.get? n = some s) (kind : s.kind ≠ .ruleStop) (ht : s.transitions[i]? = some t)
    (crosses : Crosses ground.options n i t stack q) :
    Step net graph (Position.config ⟨n, stack⟩) q.config := by
  have mem : t ∈ s.transitions := List.mem_of_getElem? ht
  cases crosses with
  | pass pass =>
      simp only [LookaheadOptions.passes, Bool.and_eq_true] at pass
      exact .silent ⟨s, t, hs, kind, mem, pass.1, rfl⟩
  | call label _ => exact .call ⟨s, t, _, hs, kind, mem, label, rfl⟩

theorem Moves.step {p q : Position} (move : Moves ground p q) :
    Step ground.net ground.graph p.config q.config := by
  cases move with
  | cross hs kind _ ht crosses => exact crosses.step hs kind ht
  | back hs kind _ mem =>
      cases CallStack.resume_mem_returns_iff.mp mem with
      | call => exact .back ⟨_, hs, kind⟩
      | drop entry => exact .drop ⟨_, hs, kind⟩ entry

theorem Reach.steps {p q : Position} (reach : Reach ground p q) :
    Steps ground.net ground.graph p.config q.config := by
  induction reach with
  | refl => exact .refl
  | tail _ move ih => exact ih.tail move.step

theorem endsAt_config {p : Position} :
    EndsAt net graph p.config ↔ net.AtStop p.state ∧ .ended ∈ p.stack.returns graph := by
  obtain ⟨n, calls, base⟩ := p
  cases calls with
  | nil => simp [EndsAt, Position.config, CallStack.ended_mem_returns_nil]
  | cons f calls => simp [EndsAt, Position.config, CallStack.returns_cons]

/-- A walk that looks through predicates and does not stop early. -/
structure Free (ground : Ground) : Prop where
  stop : ground.stop = none
  see : ground.options.seeThroughPredicates = true

theorem Free.going (free : Free ground) (n : Nat) (stack : CallStack) :
    ¬ ground.Halts n stack := by
  intro halts
  rw [Ground.Halts, free.stop] at halts
  cases halts.1

/-- What is recorded in a position, when predicates are looked through and no state is a stop. -/
theorem emits_iff (free : Free ground) {p : Position} {x : Int} :
    Emits ground p x ↔ ground.net.Consumes p.state x ∨
      (x = ground.options.boundary ∧ EndsAt ground.net ground.graph p.config) := by
  constructor
  · intro emits
    cases emits with
    | halt _ halts => exact absurd halts (free.going _ _)
    | ended hs kind mem => exact .inr ⟨rfl, endsAt_config.mpr ⟨⟨_, hs, kind⟩, mem⟩⟩
    | edge hs kind _ ht shows =>
        cases shows with
        | barrier _ closed =>
            rw [free.see] at closed
            cases closed
        | symbol mem =>
            exact .inl ⟨_, _, hs, kind, List.mem_of_getElem? ht, mem_consumed.mp mem⟩
  · rintro (⟨s, t, hs, kind, mem, accepts⟩ | ⟨rfl, ends⟩)
    · obtain ⟨i, ht⟩ := List.mem_iff_getElem?.mp mem
      exact .edge hs kind (free.going _ _) ht (.symbol (mem_consumed.mpr accepts))
    · obtain ⟨⟨s, hs, kind⟩, mem⟩ := endsAt_config.mp ends
      exact .ended hs kind mem

/-! ### A lookahead that is free -/

/-- The ground of a lookahead that looks through predicates. -/
abbrev Ground.clear (net : Network) (graph : StackGraph) (atEnd : Bool) : Ground :=
  { net, graph, options := { addEndOfInput := atEnd } }

theorem free_clear (net : Network) (graph : StackGraph) (atEnd : Bool) :
    Free (.clear net graph atEnd) :=
  ⟨rfl, rfl⟩

/-- A walk from a state, above a node, gets to where the symbol is consumed. For the mark of the end
it may also get to the end of the outermost rule. -/
def Finds (net : Network) (graph : StackGraph) (atEnd : Bool) (n base : Nat) (x : Int) : Prop :=
  ∃ p, Reach (.clear net graph atEnd) ⟨n, [], base⟩ p ∧
    (net.Consumes p.state x ∨
      x = LookaheadOptions.boundary { addEndOfInput := atEnd } ∧ EndsAt net graph p.config)

/-- A lookahead that looks through predicates has an answer in a rule-closed network. -/
theorem look_finds {n : Nat} {stack : Option Nat} {atEnd : Bool} (closed : net.RuleClosed)
    (unresumed : net.NoEntryResumed) (live : graph.ReturnsLive net (graph.resolveRef stack)) :
    ∃ found, net.look graph (some n) stack { addEndOfInput := atEnd } = .ok found ∧
      ∀ x, x ∈ found ↔ Finds net graph atEnd n (graph.resolveRef stack) x := by
  have spec : Answers (.clear net graph atEnd) ⟨n, [], graph.resolveRef stack⟩
      (net.look graph (some n) stack { addEndOfInput := atEnd }) :=
    look_spec closed unresumed live
  obtain ⟨found, answer, mem⟩ := spec
  refine ⟨found, answer, fun x => (mem x).trans (exists_congr fun p => ?_)⟩
  exact and_congr_right fun _ => emits_iff (free_clear net graph atEnd)

end Lookahead

end GrammarNet
