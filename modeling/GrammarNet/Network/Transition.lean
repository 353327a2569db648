import GrammarNet.SymbolSet.Basic

/-!
The edges of a network.

A transition leads to a state and carries a label. A label either consumes a symbol or is passed
without consuming input (`Label.isEpsilon`); which symbols a label accepts is `Label.accepts`.
-/

namespace GrammarNet

/-- What a transition asks for before it leads on. -/
inductive Label where
  | epsilon
  | atom (symbol : Int)
  | range (lo hi : Int)
  | set (symbols : SymbolSet)
  | notSet (symbols : SymbolSet)
  | wildcard
  /-- Runs a rule, whose start state is the target, and goes on at `follow` when it has ended. -/
  | call (follow : Nat) (rule precedence : Int)
  | predicate (rule index : Int) (contextDependent : Bool)
  /-- Passed when the precedence in force is at most `level`. -/
  | precedence (level : Int)
  | action (rule index : Int) (contextDependent : Bool)
  deriving DecidableEq

namespace Label

/-- The label is passed without consuming input. -/
def isEpsilon : Label → Bool
  | epsilon | call .. | predicate .. | precedence _ | action .. => true
  | atom _ | range .. | set _ | notSet _ | wildcard => false

/-- The symbols the label names: those it accepts, or for `notSet` those it refuses. -/
def symbols : Label → SymbolSet
  | atom x => .single x
  | range lo hi => .interval lo hi
  | set s | notSet s => s
  | epsilon | wildcard | call .. | predicate .. | precedence _ | action .. => ∅

/-- The label consumes this symbol when the vocabulary runs from `min` to `max`. -/
def accepts (l : Label) (min max x : Int) : Bool :=
  match l with
  | atom _ | range .. | set _ => l.symbols.contains x
  | notSet s => decide (min ≤ x) && decide (x ≤ max) && !s.contains x
  | wildcard => decide (min ≤ x) && decide (x ≤ max)
  | epsilon | call .. | predicate .. | precedence _ | action .. => false

/-- The state at which a call goes on. -/
def follow? : Label → Option Nat
  | call follow _ _ => some follow
  | _ => none

end Label

/-- An edge of a network. -/
structure Transition where
  target : Nat
  label : Label
  deriving DecidableEq

namespace Transition

/-- The edge leads to the state, or goes on at it after a call. -/
def reaches (t : Transition) (state : Nat) : Bool :=
  t.target == state || t.label.follow? == some state

/-- An edge that consumes nothing and asks nothing. -/
def epsilon (target : Nat) : Transition :=
  ⟨target, .epsilon⟩

end Transition

end GrammarNet
