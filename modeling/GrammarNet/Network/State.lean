import GrammarNet.Network.Transition

/-!
The states of a network: their kinds, and what their outgoing edges say about them.
-/

namespace GrammarNet

/-- The part a state plays in its rule. -/
inductive StateKind where
  | invalid
  | basic
  | ruleStart
  | blockStart
  | plusBlockStart
  | starBlockStart
  /-- The entry of a lexer mode. -/
  | tokenStart
  | ruleStop
  | blockEnd
  | starLoopBack
  | starLoopEntry
  | plusLoopBack
  | loopEnd
  deriving DecidableEq, Repr

namespace StateKind

/-- The name of a kind in texts. -/
def name : StateKind → String
  | invalid => "INVALID"
  | basic => "BASIC"
  | ruleStart => "RULE_START"
  | blockStart => "BLOCK_START"
  | plusBlockStart => "PLUS_BLOCK_START"
  | starBlockStart => "STAR_BLOCK_START"
  | tokenStart => "TOKEN_START"
  | ruleStop => "RULE_STOP"
  | blockEnd => "BLOCK_END"
  | starLoopBack => "STAR_LOOP_BACK"
  | starLoopEntry => "STAR_LOOP_ENTRY"
  | plusLoopBack => "PLUS_LOOP_BACK"
  | loopEnd => "LOOP_END"

/-- All kinds. -/
def all : List StateKind :=
  [invalid, basic, ruleStart, blockStart, plusBlockStart, starBlockStart, tokenStart, ruleStop,
    blockEnd, starLoopBack, starLoopEntry, plusLoopBack, loopEnd]

/-- The kind with a given name. -/
def ofName? (name : String) : Option StateKind :=
  all.find? fun kind => kind.name == name

/-- States of this kind choose between their outgoing edges. -/
def isDecision : StateKind → Bool
  | blockStart | plusBlockStart | starBlockStart | tokenStart | starLoopEntry | plusLoopBack => true
  | invalid | basic | ruleStart | ruleStop | blockEnd | starLoopBack | loopEnd => false

end StateKind

/-- A state of a network. -/
structure State where
  /-- The slot of the state in its network. -/
  number : Nat
  kind : StateKind
  /-- The rule the state belongs to; negative when it belongs to none. -/
  rule : Int
  /-- The decision this state is registered as. -/
  decision : Option Nat := none
  /-- For the registered start of a rule, the stop state of the rule. -/
  stop : Option Nat := none
  transitions : List Transition := []
  deriving DecidableEq

namespace State

/-- The state has outgoing edges and all of them are passed without consuming input. -/
def epsilonOnly (s : State) : Bool :=
  !s.transitions.isEmpty && s.transitions.all (·.label.isEpsilon)

/-- The first call out of the state, with the state at which it goes on. -/
def call? (s : State) : Option (Transition × Nat) :=
  s.transitions.findSome? fun t => t.label.follow?.map fun follow => (t, follow)

end State

end GrammarNet
