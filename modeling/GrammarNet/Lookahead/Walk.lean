import GrammarNet.Loop
import GrammarNet.Lookahead.CallStack
import Std.Data.TreeSet

/-!
The lookahead walk: all that can follow a state before a symbol is consumed.

The walk goes through the positions, each a state with a call stack, that are reached without
consuming input, and collects the symbols that the edges there consume. It enters each position
once. A rule that is being run is not called again, which cuts left recursion; leaving the rule at
its stop state lifts this for what comes after it. Where the stack ends, the walk records that the
end of the outermost rule was reached.
-/

namespace GrammarNet

/-- How a walk treats predicates and the end of the outermost rule. -/
structure LookaheadOptions where
  /-- Go on behind a predicate; otherwise record `Symbol.invalid` and end that way. -/
  seeThroughPredicates : Bool := true
  /-- Record the end of the input where the stack ends; otherwise record `Symbol.epsilon`. -/
  addEndOfInput : Bool := false
  deriving DecidableEq, Repr

namespace LookaheadOptions

/-- What is recorded where the stack ends. -/
def boundary (options : LookaheadOptions) : Int :=
  if options.addEndOfInput then Symbol.endOfInput else Symbol.epsilon

end LookaheadOptions

/-- Why a lookahead or an expectation has no answer. -/
inductive LookaheadError where
  /-- A stack returns to a state that is not there. -/
  | missingReturn (state : Int)
  | noSuchState (state : Int)
  | removedState (state : Int)
  /-- A state that is said to have called a rule has no call. -/
  | notACall (state : Int)
  deriving DecidableEq, Repr

namespace LookaheadError

/-- The text of an error. -/
def message : LookaheadError → String
  | missingReturn n => "context returns to missing state " ++ toString n
  | noSuchState n => "Invalid state number " ++ toString n
  | removedState n => "State " ++ toString n ++ " was removed"
  | notACall n => "invoking state " ++ toString n ++ " does not call a rule"

end LookaheadError

namespace Lookahead

/-- What a walk is made over, fixed while it goes on. -/
structure Ground where
  net : Network
  graph : StackGraph
  /-- A state at which the walk ends when the stack is empty. -/
  stop : Option Nat := none
  options : LookaheadOptions := {}

/-- A piece of pending work. -/
inductive Task where
  /-- Enter a state. -/
  | visit (state : Nat) (stack : CallStack)
  /-- Follow an edge of a state. -/
  | follow (source index : Nat) (edge : Transition) (stack : CallStack)
  /-- Set whether a rule is being run, now that all behind a call or a return is done. -/
  | restore (rule : Int) (running : Bool)
  deriving DecidableEq

/-- A walk under way. -/
structure Walk where
  tasks : List Task
  /-- The positions that were entered. -/
  entered : Std.TreeSet (List Nat) := ∅
  /-- The rules being run. -/
  running : List Int := []
  found : SymbolSet := ∅

/-- Sets whether a rule is among those being run. -/
def setRunning (running : List Int) (rule : Int) (on : Bool) : List Int :=
  if on then
    if running.contains rule then running else rule :: running
  else running.filter (· ≠ rule)

/-- The work for the edges of a state, in their order. -/
def edgeTasks (source : Nat) (stack : CallStack) (edges : List Transition) : List Task :=
  edges.zipIdx.map fun (edge, index) => .follow source index edge stack

/-- The work for the ways to leave a rule; a way that ends the stack leaves none. -/
def returnTasks (returns : List CallStack.Return) : List Task :=
  returns.filterMap fun r =>
    match r with
    | .ended => none
    | .resume state stack => some (.visit state.toNat stack)

/-- The last of the return states that is not in the network. -/
def missingReturn? (net : Network) (returns : List CallStack.Return) : Option Int :=
  returns.reverse.findSome? fun r =>
    match r with
    | .ended => none
    | .resume state _ => if (net.state? state).isSome then none else some state

/-- The symbols that an edge can consume. -/
def consumed (maxSymbol : Int) : Label → SymbolSet
  | .wildcard => .interval Symbol.firstUser maxSymbol
  | .notSet s => s.complement Symbol.firstUser maxSymbol
  | .atom x => .single x
  | .range lo hi => .interval lo hi
  | .set s => s
  | .epsilon | .call .. | .predicate .. | .precedence _ | .action .. => ∅

namespace Walk

/-- The walk that starts in a state. -/
def start (state : Nat) (base : Nat) : Walk :=
  { tasks := [.visit state { base }] }

/-- Records a symbol. -/
def record (w : Walk) (symbol : Int) : Walk :=
  { w with found := w.found.addSymbol symbol }

/-- Puts work in front of what is pending. -/
def plan (w : Walk) (tasks : List Task) : Walk :=
  { w with tasks := tasks ++ w.tasks }

/-- Leaves the rule of a stop state: goes on at each return state, in their order, with the rule
no longer being run. -/
def leave (w : Walk) (ground : Ground) (rule : Int) (stack : CallStack) :
    Except LookaheadError Walk :=
  let returns := stack.returns ground.graph
  match missingReturn? ground.net returns with
  | some state => .error (.missingReturn state)
  | none =>
      let w := if returns.contains .ended then w.record ground.options.boundary else w
      .ok
        { w.plan (returnTasks returns ++ [.restore rule (w.running.contains rule)]) with
          running := setRunning w.running rule false }

/-- Enters a position that was not entered before. -/
def enter (w : Walk) (ground : Ground) (n : Nat) (s : State) (stack : CallStack) :
    Except LookaheadError Walk :=
  if ground.stop = some n ∧ stack.isEmpty then .ok (w.record ground.options.boundary)
  else if s.kind = .ruleStop then
    if stack.isEmpty then .ok (w.record ground.options.boundary)
    else w.leave ground s.rule stack
  else .ok (w.plan (edgeTasks n stack s.transitions))

/-- Follows an edge. -/
def followEdge (w : Walk) (ground : Ground) (source index : Nat) (edge : Transition)
    (stack : CallStack) : Walk :=
  match edge.label with
  | .call returnTo rule _ =>
      if w.running.contains rule then w
      else
        { w.plan [.visit edge.target (stack.enter ⟨source, index, rule, returnTo⟩),
            .restore rule false] with
          running := setRunning w.running rule true }
  | .predicate .. | .precedence _ =>
      if ground.options.seeThroughPredicates then w.plan [.visit edge.target stack]
      else w.record Symbol.invalid
  | .epsilon | .action .. => w.plan [.visit edge.target stack]
  | .atom _ | .range .. | .set _ | .notSet _ | .wildcard =>
      { w with found := w.found ∪ consumed ground.net.maxSymbol edge.label }

/-- Does the piece of work in front. A state that is not in the network is not entered. -/
def round (ground : Ground) (w : Walk) : Round Walk (Except LookaheadError SymbolSet) :=
  match w.tasks with
  | [] => .done (.ok w.found)
  | .restore rule on :: tasks =>
      .next { w with tasks, running := setRunning w.running rule on }
  | .follow source index edge stack :: tasks =>
      .next ({ w with tasks }.followEdge ground source index edge stack)
  | .visit n stack :: tasks =>
      match ground.net.get? n with
      | none => .next { w with tasks }
      | some s =>
          if w.entered.contains (stack.key n) then .next { w with tasks }
          else
            let w := { w with tasks, entered := w.entered.insert (stack.key n) }
            match w.enter ground n s stack with
            | .error e => .done (.error e)
            | .ok w => .next w

end Walk

end Lookahead

end GrammarNet
