import GrammarNet.Network.Construct

/-!
Fragments: pieces of rule bodies, from which a network is assembled rule by rule.

A fragment is a part of the network between an entry and an exit state. The operations make a
fragment for one element of a rule body, or join fragments by edges that consume nothing. Each
names the rule to which its new states belong.
-/

namespace GrammarNet

/-- A piece of a rule body, from its entry state to its exit state. -/
structure Fragment where
  entry : Nat
  exit : Nat
  deriving DecidableEq, Repr

namespace Fragment

/-! ### Rules -/

/-- Makes the boundary states of the next rule and gives its number. -/
def newRule : Build Nat := do
  let r ← Build.lookup fun net => .ok net.rules.size
  let start ← Build.createState .ruleStart r
  let stop ← Build.createState .ruleStop r
  Build.defineRule (some start) (some stop)

/-- Makes a lexer rule that produces a token type. -/
def newLexerRule (tokenType : Int) : Build Nat := do
  let r ← newRule
  Build.defineTokenType r tokenType
  pure r

/-- Makes a fragment the body of a rule. -/
def setRuleBody (rule : Int) (body : Fragment) : Build Unit := do
  let boundary ← Build.lookup (·.rule rule)
  Build.connect boundary.start body.entry
  Build.connect body.exit boundary.stop

/-! ### Elements -/

/-- Two new states joined by an edge with this label. -/
def element (rule : Int) (label : Label) : Build Fragment := do
  let entry ← Build.createState .basic rule
  let exit ← Build.createState .basic rule
  Build.addTransition entry ⟨exit, label⟩
  pure ⟨entry, exit⟩

/-- Nothing. -/
def epsilon (rule : Int) : Build Fragment :=
  element rule .epsilon

/-- One symbol. -/
def atom (rule symbol : Int) : Build Fragment :=
  element rule (.atom symbol)

/-- A symbol from `lo` to `hi`. -/
def range (rule lo hi : Int) : Build Fragment :=
  element rule (.range lo hi)

/-- A symbol of a set. -/
def set (rule : Int) (symbols : SymbolSet) : Build Fragment :=
  element rule (.set symbols)

/-- A symbol of the vocabulary that is not in a set. -/
def notSet (rule : Int) (symbols : SymbolSet) : Build Fragment :=
  element rule (.notSet symbols)

/-- Any symbol of the vocabulary. -/
def wildcard (rule : Int) : Build Fragment :=
  element rule .wildcard

/-- An action of the rule. -/
def action (rule index : Int) (contextDependent : Bool := false) : Build Fragment :=
  element rule (.action rule index contextDependent)

/-- A predicate of the rule. -/
def predicate (rule index : Int) (contextDependent : Bool := false) : Build Fragment :=
  element rule (.predicate rule index contextDependent)

/-- A test of the precedence in force. -/
def precedence (rule level : Int) : Build Fragment :=
  element rule (.precedence level)

/-- A call of the rule `callee`. The stop state of the callee gets an edge to the state at which
the call goes on. -/
def ruleRef (rule callee : Int) (precedence : Int := 0) : Build Fragment := do
  let boundary ← Build.lookup (·.rule callee)
  let entry ← Build.createState .basic rule
  let follow ← Build.createState .basic rule
  let call ← Build.callTransition (some boundary.start) (some follow) precedence
  Build.addTransition entry call
  Build.connect boundary.stop follow
  pure ⟨entry, follow⟩

/-! ### Combinations -/

/-- Joins each fragment with the next; gives the exit of the last. -/
def joinFrom (last : Nat) : List Fragment → Build Nat
  | [] => pure last
  | f :: rest => do
      Build.connect last f.entry
      joinFrom f.exit rest

/-- The fragments one after the other. -/
def sequence : List Fragment → Build Fragment
  | [] => throw .emptySequence
  | f :: rest => do
      let exit ← joinFrom f.exit rest
      pure ⟨f.entry, exit⟩

/-- Joins each fragment as an alternative between two states. -/
def joinAlternatives (entry exit : Nat) : List Fragment → Build Unit
  | [] => pure ()
  | f :: rest => do
      Build.connect entry f.entry
      Build.connect f.exit exit
      joinAlternatives entry exit rest

/-- One of the fragments. A single fragment is given back unchanged. -/
def alternatives (rule : Int) : List Fragment → Build Fragment
  | [] => throw .emptyBlock
  | [f] => pure f
  | fragments => do
      let entry ← Build.createState .blockStart rule
      let exit ← Build.createState .blockEnd rule
      joinAlternatives entry exit fragments
      let _ ← Build.defineDecision (some entry)
      pure ⟨entry, exit⟩

/-- The fragment or nothing; the way past it is the last alternative. -/
def optional (rule : Int) (body : Fragment) : Build Fragment := do
  let entry ← Build.createState .blockStart rule
  let exit ← Build.createState .blockEnd rule
  Build.connect entry body.entry
  Build.connect entry exit
  Build.connect body.exit exit
  let _ ← Build.defineDecision (some entry)
  pure ⟨entry, exit⟩

/-- The fragment any number of times. The loop entry leads to the body or to the exit, and the end
of the body leads back to the loop entry. -/
def star (rule : Int) (body : Fragment) : Build Fragment := do
  let entry ← Build.createState .starLoopEntry rule
  let blockStart ← Build.createState .starBlockStart rule
  let blockEnd ← Build.createState .blockEnd rule
  let loopBack ← Build.createState .starLoopBack rule
  let exit ← Build.createState .loopEnd rule
  Build.connect entry blockStart
  Build.connect entry exit
  Build.connect blockStart body.entry
  Build.connect body.exit blockEnd
  Build.connect blockEnd loopBack
  Build.connect loopBack entry
  let _ ← Build.defineDecision (some entry)
  let _ ← Build.defineDecision (some blockStart)
  pure ⟨entry, exit⟩

/-- The fragment once or more often. The end of the body leads back to its start or to the exit. -/
def plus (rule : Int) (body : Fragment) : Build Fragment := do
  let blockStart ← Build.createState .plusBlockStart rule
  let blockEnd ← Build.createState .blockEnd rule
  let loopBack ← Build.createState .plusLoopBack rule
  let exit ← Build.createState .loopEnd rule
  Build.connect blockStart body.entry
  Build.connect body.exit blockEnd
  Build.connect blockEnd loopBack
  Build.connect loopBack blockStart
  Build.connect loopBack exit
  let _ ← Build.defineDecision (some blockStart)
  let _ ← Build.defineDecision (some loopBack)
  pure ⟨blockStart, exit⟩

/-- Lengthens a row of new states by `n`, each joined with the next; gives the last. -/
def chainFrom (rule : Int) (last : Nat) : Nat → Build Nat
  | 0 => pure last
  | n + 1 => do
      let state ← Build.createState .basic rule
      Build.connect last state
      chainFrom rule state n

/-- A row of `n + 1` new states, each joined with the next. -/
def chain (rule : Int) (n : Nat) : Build Fragment := do
  let entry ← Build.createState .basic rule
  let exit ← chainFrom rule entry n
  pure ⟨entry, exit⟩

/-! ### Modes -/

/-- Joins a state with the start of each rule. -/
def joinRules (source : Nat) : List Int → Build Unit
  | [] => pure ()
  | r :: rest => do
      let boundary ← Build.lookup (·.rule r)
      Build.connect source boundary.start
      joinRules source rest

/-- Makes a lexer mode that chooses between the given rules and gives its start state. -/
def newMode (name : String) (rules : List Int) : Build Nat := do
  let start ← Build.createState .tokenStart (-1)
  joinRules start rules
  let _ ← Build.defineMode name (some start)
  pure start

end Fragment

end GrammarNet
