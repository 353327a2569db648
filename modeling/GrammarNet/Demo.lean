import GrammarNet.Lookahead.Expected
import GrammarNet.Network.Dot
import GrammarNet.Network.Fragment

/-!
A demonstration: the network of a small expression language and what can follow in it.

```text
prog   : stat+ ;
stat   : expr ';' ;
expr   : term ('+' term)* ;
term   : factor ('*' factor)* ;
factor : ID | INT | '(' expr ')' ;
```
-/

namespace GrammarNet

namespace Demo

/-- The token types, from `ID` to `SEMI`. -/
def id : Int := 1
def int : Int := 2
def plus : Int := 3
def star : Int := 4
def leftParen : Int := 5
def rightParen : Int := 6
def semi : Int := 7

/-- The names of the token types. -/
def vocabulary : Vocabulary :=
  ["", "ID", "INT", "'+'", "'*'", "'('", "')'", "';'"]

/-- The states that the demonstration asks about. -/
structure Places where
  /-- The state behind an `ID`. -/
  afterId : Nat
  /-- The calls that lead from the outermost rule to a factor. -/
  chain : ParseChain

/-- Assembles the network of the language. -/
def language : Build Places := do
  let prog ← Fragment.newRule
  let stat ← Fragment.newRule
  let expr ← Fragment.newRule
  let term ← Fragment.newRule
  let factor ← Fragment.newRule
  let callStat ← Fragment.ruleRef prog stat
  Fragment.setRuleBody prog (← Fragment.plus prog callStat)
  let callExpr ← Fragment.ruleRef stat expr
  let terminator ← Fragment.atom stat semi
  Fragment.setRuleBody stat (← Fragment.sequence [callExpr, terminator])
  let callTerm ← Fragment.ruleRef expr term
  let sign ← Fragment.atom expr plus
  let nextTerm ← Fragment.ruleRef expr term
  let sum ← Fragment.star expr (← Fragment.sequence [sign, nextTerm])
  Fragment.setRuleBody expr (← Fragment.sequence [callTerm, sum])
  let callFactor ← Fragment.ruleRef term factor
  let sign ← Fragment.atom term star
  let nextFactor ← Fragment.ruleRef term factor
  let product ← Fragment.star term (← Fragment.sequence [sign, nextFactor])
  Fragment.setRuleBody term (← Fragment.sequence [callFactor, product])
  let name ← Fragment.atom factor id
  let number ← Fragment.atom factor int
  let opening ← Fragment.atom factor leftParen
  let inner ← Fragment.ruleRef factor expr
  let closing ← Fragment.atom factor rightParen
  let group ← Fragment.sequence [opening, inner, closing]
  Fragment.setRuleBody factor (← Fragment.alternatives factor [name, number, group])
  pure
    { afterId := name.exit
      chain := [callFactor.entry, callTerm.entry, callExpr.entry, callStat.entry, -1] }

/-- The sizes of a network. -/
def sizes (net : Network) : String :=
  "states: " ++ toString net.states.size ++ ", rules: " ++ toString net.rules.size ++
    ", decisions: " ++ toString net.decisions.size ++ "\n"

/-- The text of an error in the report. -/
def failure (message : String) : String :=
  "ERR:  -> " ++ message ++ "\n"

/-- The lookahead of each alternative of a decision. -/
def decisionLine (net : Network) (d n : Nat) : String :=
  match net.get? n, net.decisionLookahead (some n) with
  | some s, .ok alternatives =>
      let shown := alternatives.zipIdx.map fun (found, i) =>
        " alt " ++ toString (i + 1) ++ "=" ++
          match found with
          | some symbols => symbols.text vocabulary
          | none => "?"
      "decision " ++ toString d ++ " (s" ++ toString n ++ ", " ++ s.kind.name ++ "):" ++
        String.join shown ++ "\n"
  | _, .error e => failure e.message
  | none, _ => ""

/-- The follow set of each state within its rule. -/
def followLines (net : Network) : Follow (List String) :=
  net.states.toList.mapM fun slot =>
    match slot with
    | none => pure ""
    | some s => do
        let following ← Follow.set net s.number
        pure ("s" ++ toString s.number ++ " " ++ s.kind.name ++ " r" ++ toString s.rule ++ ": " ++
          following.text vocabulary ++ "\n")

/-- The symbols expected behind an `ID`, five rules deep, and the answer for a number that is no
state. -/
def expectedLines (net : Network) (places : Places) : Follow (List String) := do
  match ← Follow.attempt (Follow.expected net places.afterId places.chain) with
  | .error e => pure [failure e.message]
  | .ok expected =>
      let line := "expected after ID: " ++ expected.text vocabulary ++ "\n"
      match ← Follow.attempt (Follow.expected net (-1) places.chain) with
      | .error e => pure [line, failure e.message]
      | .ok _ => pure [line]

/-- The whole report on a network. -/
def report (net : Network) (places : Places) : String :=
  let decisions := net.decisions.toList.zipIdx.map fun (n, d) => decisionLine net d n
  let rest : Follow (List String) := do
    let follows ← followLines net
    let expected ← expectedLines net places
    pure (follows ++ expected)
  let lines :=
    match (rest.exec {}).1 with
    | .ok lines => lines
    | .error e => [failure e.message]
  sizes net ++ String.join decisions ++ String.join lines

/-- The empty network on which the language is assembled. -/
def blank : Network :=
  { grammar := .parser, maxSymbol := semi }

/-- What the demonstration prints, and the graph of its network. -/
def output : String × String :=
  match language.exec blank with
  | (.ok places, net) => (report net places, net.dot vocabulary)
  | (.error e, net) => (failure e.message, net.dot vocabulary)

/-- What is said when a file cannot be written. -/
def openFailure (path : String) : String :=
  "Failed to open " ++ path ++ "\n"

end Demo

end GrammarNet
