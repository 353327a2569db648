import Std.Data.TreeMap

/-!
The lookahead automaton of one decision or lexer mode, filled in by a predictor over time.

States are found by their signature: adding a signature a second time gives the state that the
first time made. States are numbered in the order of their insertion, and a number stays with its
state.

* `find?_add`: a signature once added is found, and no other look-up changes.
* `states_add`: the states already made stay as they are.
* `edge?_setEdge`: an edge leads where it was last set to, and no other edge changes.
* `start_setStartIfAbsent`: the start state is set once.
-/

namespace GrammarNet

/-- A state of a prediction automaton. -/
structure DfaState where
  /-- What the predictor identifies the state by. -/
  signature : List Int
  accepting : Bool := false
  /-- The predicted alternative, once the state accepts. -/
  prediction : Int := 0
  /-- The targets set so far; a symbol may be set to no state. -/
  edges : Std.TreeMap Int (Option Nat) := ∅

namespace DfaState

/-- The state reached on a symbol. -/
def edge? (s : DfaState) (symbol : Int) : Option Nat :=
  (s.edges[symbol]?).join

/-- Sets where the state leads on a symbol. -/
def setEdge (s : DfaState) (symbol : Int) (target : Option Nat) : DfaState :=
  { s with edges := s.edges.insert symbol target }

theorem edge?_setEdge (s : DfaState) (symbol : Int) (target : Option Nat) (other : Int) :
    (s.setEdge symbol target).edge? other =
      if other = symbol then target else s.edge? other := by
  unfold edge? setEdge
  rw [Std.TreeMap.getElem?_insert]
  by_cases h : other = symbol
  · simp [h]
  · simp [h, Ne.symm h]

end DfaState

/-- A lookahead automaton. -/
structure PredictionDfa where
  /-- The state of the network at which prediction starts. -/
  networkState : Option Nat
  /-- The number of the decision or mode. -/
  number : Int
  states : Array DfaState := #[]
  /-- The number of the state with a given signature. -/
  numbers : Std.TreeMap (List Int) Nat := ∅
  start : Option Nat := none

namespace PredictionDfa

/-- The state with a signature. -/
def find? (dfa : PredictionDfa) (signature : List Int) : Option Nat :=
  dfa.numbers[signature]?

/-- The state with a signature, made if there is none yet, and whether it was made. -/
def add (dfa : PredictionDfa) (signature : List Int) : (Nat × Bool) × PredictionDfa :=
  match dfa.find? signature with
  | some n => ((n, false), dfa)
  | none =>
      let n := dfa.states.size
      ((n, true),
        { dfa with
          states := dfa.states.push { signature }
          numbers := dfa.numbers.insert signature n })

/-- Makes a state the start state if there is none yet; gives the start state in effect. -/
def setStartIfAbsent (dfa : PredictionDfa) (state : Option Nat) : Option Nat × PredictionDfa :=
  match dfa.start with
  | some n => (some n, dfa)
  | none => (state, { dfa with start := state })

/-- Sets where a state leads on a symbol. -/
def setEdge (dfa : PredictionDfa) (source : Nat) (symbol : Int) (target : Option Nat) :
    PredictionDfa :=
  { dfa with states := dfa.states.modify source (·.setEdge symbol target) }

/-- The state reached from a state on a symbol. -/
def edge? (dfa : PredictionDfa) (source : Nat) (symbol : Int) : Option Nat :=
  dfa.states[source]?.bind (·.edge? symbol)

/-- The number of symbols that were set on a state. -/
def edgeCount (dfa : PredictionDfa) (source : Nat) : Nat :=
  match dfa.states[source]? with
  | some s => s.edges.size
  | none => 0

/-- Sets whether a state accepts, and the alternative it predicts. -/
def mark (dfa : PredictionDfa) (state : Nat) (accepting : Bool) (prediction : Int) :
    PredictionDfa :=
  { dfa with states := dfa.states.modify state fun s => { s with accepting, prediction } }

/-! ### What the operations keep -/

theorem find?_add (dfa : PredictionDfa) (signature other : List Int) :
    (dfa.add signature).2.find? other =
      if other = signature then some (dfa.add signature).1.1 else dfa.find? other := by
  unfold add
  split
  · rename_i n found
    by_cases e : other = signature
    · simp [e, found]
    · simp [e]
  · simp only [find?, Std.TreeMap.getElem?_insert]
    by_cases e : other = signature
    · simp [e]
    · simp [e, Ne.symm e]

theorem states_add (dfa : PredictionDfa) (signature : List Int) (n : Nat) (s : DfaState)
    (h : dfa.states[n]? = some s) : (dfa.add signature).2.states[n]? = some s := by
  unfold add
  split
  · exact h
  · obtain ⟨lt, _⟩ := Array.getElem?_eq_some_iff.1 h
    simp [Array.getElem?_push, Nat.ne_of_lt lt, h]

theorem edge?_setEdge (dfa : PredictionDfa) (source : Nat) (symbol : Int) (target : Option Nat)
    (state : Nat) (other : Int) (h : source < dfa.states.size) :
    (dfa.setEdge source symbol target).edge? state other =
      if state = source ∧ other = symbol then target else dfa.edge? state other := by
  unfold setEdge edge?
  simp only [Array.getElem?_modify]
  by_cases e : state = source
  · subst e
    simp [h, DfaState.edge?_setEdge]
  · simp [e, Ne.symm e]

theorem start_setStartIfAbsent (dfa : PredictionDfa) (state : Option Nat) :
    (dfa.setStartIfAbsent state).2.start = dfa.start.or state := by
  unfold setStartIfAbsent
  split <;> rename_i h <;> simp [h]

/-- What is answered is the start state in effect afterwards. -/
theorem setStartIfAbsent_fst (dfa : PredictionDfa) (state : Option Nat) :
    (dfa.setStartIfAbsent state).1 = (dfa.setStartIfAbsent state).2.start := by
  unfold setStartIfAbsent
  split <;> rename_i h <;> simp [h]

end PredictionDfa

end GrammarNet
