import GrammarNet.Network.Basic
import GrammarNet.SymbolSet.Display

/-!
The text of a network as a graph in the DOT language.

Each state gives a line for its node and a line for each of its edges. Labels stand between quotes
and are escaped (`Dot.escape`), so no name in a vocabulary can end its label or its line.
-/

namespace GrammarNet

namespace Dot

/-- A character as it stands between quotes. -/
def escapeChar : Char → List Char
  | '\\' => ['\\', '\\']
  | '"' => ['\\', '"']
  | '\n' => ['\\', 'n']
  | c => [c]

/-- A text as it stands between quotes. -/
def escape (text : String) : String :=
  String.ofList (text.toList.flatMap escapeChar)

/-- The number of a predicate or action, with a mark when it depends on the context. -/
def numbered (word : String) (rule index : Int) (contextDependent : Bool) : String :=
  word ++ " " ++ toString rule ++ ":" ++ toString index ++ (if contextDependent then " ctx" else "")

/-- What is written on an edge. -/
def labelText (names : Vocabulary) : Label → String
  | .epsilon => "ε"
  | .atom x => (SymbolSet.single x).text names
  | .range lo hi => (SymbolSet.interval lo hi).text names
  | .set s => s.text names
  | .notSet s => "~" ++ s.text names
  | .wildcard => "."
  | .call follow rule _ => "call " ++ toString rule ++ " -> s" ++ toString follow
  | .predicate rule index ctx => numbered "pred" rule index ctx
  | .precedence level => "prec " ++ toString level
  | .action rule index ctx => numbered "action" rule index ctx

/-- The form of a node. -/
def shape (s : State) : String :=
  if s.kind = .ruleStart then "doublecircle"
  else if s.kind = .ruleStop then "doublecircle color=green"
  else if s.decision.isSome then "diamond"
  else "circle"

/-- The line of a node: number, kind and decision, one below the other. -/
def nodeLine (s : State) : String :=
  let decision :=
    match s.decision with
    | some d => "\\nd=" ++ toString d
    | none => ""
  "  s" ++ toString s.number ++ " [label=\"" ++ toString s.number ++ "\\n" ++ s.kind.name ++
    decision ++ "\", shape=" ++ shape s ++ "];\n"

/-- The line of an edge; one that consumes nothing is dashed. -/
def edgeLine (names : Vocabulary) (source : Nat) (t : Transition) : String :=
  "  s" ++ toString source ++ " -> s" ++ toString t.target ++
    " [label=\"" ++ escape (labelText names t.label) ++ "\"" ++
    (if t.label.isEpsilon then ", style=dashed" else "") ++ "];\n"

/-- The lines of a state. -/
def stateLines (names : Vocabulary) (s : State) : List String :=
  nodeLine s :: s.transitions.map (edgeLine names s.number)

/-- The first lines of a graph. -/
def opening : String :=
  "digraph ATN \x7b\n  rankdir=LR;\n  fontname=\"monospace\";\n"

end Dot

namespace Network

/-- The network as a graph, with the names of a vocabulary. -/
def dot (net : Network) (names : Vocabulary) : String :=
  Dot.opening ++
    String.join (net.states.toList.flatMap fun slot =>
      match slot with
      | some s => Dot.stateLines names s
      | none => []) ++
    "\x7d\n"

end Network

end GrammarNet
