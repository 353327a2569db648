import GrammarNet.Network.State
import GrammarNet.PredictionDfa
import GrammarNet.Text.Ended

/-!
Networks: numbered states together with the registries that make a grammar of them.

A state is named by its slot; the slot of a removed state stays empty and is not used again. Rules,
decisions, modes and lexer actions are numbered in the order of their definition. Looking one up by
a number that was not given out is a `NetworkError`.
-/

namespace GrammarNet

/-- What the words of the grammar are made of: tokens or characters. -/
inductive GrammarKind where
  | lexer
  | parser
  deriving DecidableEq, Repr

namespace GrammarKind

/-- The name of a kind in texts. -/
def name : GrammarKind → String
  | lexer => "LEXER"
  | parser => "PARSER"

end GrammarKind

/-- What a lexer does when a rule has matched. -/
inductive LexerActionKind where
  | channel
  | custom
  | mode
  | more
  | popMode
  | pushMode
  | skip
  | type
  deriving DecidableEq, Repr

namespace LexerActionKind

/-- The name of a kind in texts. -/
def name : LexerActionKind → String
  | channel => "CHANNEL"
  | custom => "CUSTOM"
  | mode => "MODE"
  | more => "MORE"
  | popMode => "POP_MODE"
  | pushMode => "PUSH_MODE"
  | skip => "SKIP"
  | type => "TYPE"

/-- All kinds. -/
def all : List LexerActionKind :=
  [channel, custom, mode, more, popMode, pushMode, skip, type]

/-- The kind with a given name. -/
def ofName? (name : String) : Option LexerActionKind :=
  all.find? fun kind => kind.name == name

end LexerActionKind

/-- An action of a lexer. -/
structure LexerAction where
  kind : LexerActionKind
  /-- The channel, mode or token type. -/
  value : Int := 0
  /-- The rule of a custom action. -/
  rule : Int := -1
  /-- The number of a custom action. -/
  action : Int := -1
  deriving DecidableEq, Repr

/-- The boundary states of a rule. -/
structure Rule where
  start : Nat
  stop : Nat
  deriving DecidableEq, Repr

/-- A lexer mode: its name and the state at which it starts. -/
structure Mode where
  name : String
  start : Nat
  deriving DecidableEq, Repr

/-- Why a network refuses an operation or a lookup. -/
inductive NetworkError where
  | indexOutOfRange
  /-- No prediction automaton has this number. -/
  | slotUnassigned (index : Int)
  | calleeNotStart
  | followMissing
  | stateIsDecision (state decision : Nat)
  | stateIsBoundary (state : Nat)
  | stateIsReached (state source : Nat)
  | boundaryKinds
  | boundaryRule (rule : Nat)
  | notDecidable
  | alreadyDecision (decision : Nat)
  | modeStartKind (name : String)
  | modeDefined (name : String)
  | negativeRule
  | emptySequence
  | emptyBlock
  deriving DecidableEq, Repr

namespace NetworkError

/-- The text of an error. The number of an unassigned slot is shown modulo 2^64, and a NUL in the
name of a mode ends the text. -/
def message : NetworkError → String
  | indexOutOfRange => "index out of range"
  | slotUnassigned i => "slot " ++ toString (i % 18446744073709551616) ++ " not assigned"
  | calleeNotStart => "rule transition must target a rule start state"
  | followMissing => "rule transition requires a follow state"
  | stateIsDecision n d => "state " ++ toString n ++ " is decision " ++ toString d
  | stateIsBoundary n => "state " ++ toString n ++ " is a rule boundary"
  | stateIsReached n s => "state " ++ toString n ++ " is reached from state " ++ toString s
  | boundaryKinds => "rule needs a RULE_START and a RULE_STOP state"
  | boundaryRule r => "rule boundary states must carry rule index " ++ toString r
  | notDecidable => "state cannot be a decision"
  | alreadyDecision d => "state is already decision " ++ toString d
  | modeStartKind name =>
      Text.upToNul ("mode " ++ name ++ " needs a TOKEN_START state")
  | modeDefined name => Text.upToNul ("mode " ++ name ++ " already defined")
  | negativeRule => "negative rule index"
  | emptySequence => "empty sequence"
  | emptyBlock => "block without alternatives"

end NetworkError

/-- The entry of an array at an integer index. -/
def entryAt? {α : Type} (entries : Array α) (index : Int) : Option α :=
  if index < 0 then none else entries[index.toNat]?

/-- The transition network of a grammar. -/
structure Network where
  grammar : GrammarKind
  /-- The largest symbol that an edge can consume. -/
  maxSymbol : Int
  /-- The states by their slots. -/
  states : Array (Option State) := #[]
  rules : Array Rule := #[]
  /-- The token types of lexer rules, as far as they were defined. -/
  tokenTypes : Std.TreeMap Nat Int := ∅
  /-- The states that are decisions, in the order of their numbers. -/
  decisions : Array Nat := #[]
  modes : Array Mode := #[]
  lexerActions : Array LexerAction := #[]
  decisionDfas : Array PredictionDfa := #[]
  modeDfas : Array PredictionDfa := #[]

namespace Network

variable (net : Network)

/-- The state in a slot. -/
def get? (n : Nat) : Option State :=
  (net.states[n]?).join

/-- The state with a number, if there is one. -/
def state? (n : Int) : Option State :=
  if n < 0 then none else net.get? n.toNat

/-- The start and stop states of a rule. -/
def rule (r : Int) : Except NetworkError Rule :=
  match entryAt? net.rules r with
  | some rule => .ok rule
  | none => .error .indexOutOfRange

/-- The token type of a lexer rule; `Symbol.invalid` when none was defined. -/
def ruleTokenType (r : Int) : Int :=
  if r < 0 then Symbol.invalid else net.tokenTypes.getD r.toNat Symbol.invalid

/-- The state of a decision. Before any decision is defined, every number has none. -/
def decisionState (d : Int) : Except NetworkError (Option Nat) :=
  if net.decisions.isEmpty then .ok none
  else
    match entryAt? net.decisions d with
    | some n => .ok (some n)
    | none => .error .indexOutOfRange

/-- The start state of a mode. -/
def modeStart (m : Int) : Except NetworkError Nat :=
  match entryAt? net.modes m with
  | some mode => .ok mode.start
  | none => .error .indexOutOfRange

/-- The start state of the mode with a name. -/
def modeStartNamed? (name : String) : Option Nat :=
  (net.modes.find? (·.name == name)).map (·.start)

/-- A lexer action by its number. -/
def lexerAction (i : Int) : Except NetworkError LexerAction :=
  match entryAt? net.lexerActions i with
  | some action => .ok action
  | none => .error .indexOutOfRange

/-- The prediction automaton of a decision. -/
def decisionDfa (d : Int) : Except NetworkError PredictionDfa :=
  match entryAt? net.decisionDfas d with
  | some dfa => .ok dfa
  | none => .error (.slotUnassigned d)

/-- The prediction automaton of a mode. -/
def modeDfa (m : Int) : Except NetworkError PredictionDfa :=
  match entryAt? net.modeDfas m with
  | some dfa => .ok dfa
  | none => .error (.slotUnassigned m)

end Network

end GrammarNet
