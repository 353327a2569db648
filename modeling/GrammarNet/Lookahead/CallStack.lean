import GrammarNet.Network.Basic
import GrammarNet.StackGraph.Basic

/-!
The call stacks of a lookahead walk.

A walk starts in a node of a stack graph and enters and leaves rules from there. Its stack is the
node it still stands on, with the calls above it that the walk itself has made. A call is known by
the edge it came from, so two calls at different edges are different even when they return to the
same state.
-/

namespace GrammarNet

/-- A call that was entered: its edge, the rule that was called and the state to return to. -/
structure Frame where
  caller : Nat
  /-- The place of the edge among the edges of the caller. -/
  edge : Nat
  rule : Int
  returnTo : Nat
  deriving DecidableEq, Repr

/-- The calls of a walk, innermost first, above a node of a stack graph. -/
structure CallStack where
  calls : List Frame := []
  base : Nat
  deriving DecidableEq, Repr

namespace CallStack

/-- There is nothing to return to. -/
def isEmpty (s : CallStack) : Bool :=
  s.calls.isEmpty && s.base == StackGraph.root

/-- The stack after one more call. -/
def enter (s : CallStack) (frame : Frame) : CallStack :=
  { s with calls := frame :: s.calls }

/-- One way to leave the current rule. -/
inductive Return where
  /-- The stack ends here. -/
  | ended
  /-- Go on at a state with what is left of the stack. -/
  | resume (state : Int) (stack : CallStack)
  deriving DecidableEq, Repr

/-- The ways to leave the current rule, in the order of their return states. -/
def returns (g : StackGraph) (s : CallStack) : List Return :=
  match s.calls with
  | frame :: calls => [.resume frame.returnTo { s with calls }]
  | [] =>
      (g.entries s.base).map fun e =>
        match e with
        | .ended => .ended
        | .call returnTo caller => .resume returnTo ⟨[], caller⟩

/-- A list of numbers that tells the positions of a walk apart. -/
def key (state : Nat) (s : CallStack) : List Nat :=
  state :: s.base :: s.calls.flatMap fun f => [f.caller, f.edge]

end CallStack

end GrammarNet
