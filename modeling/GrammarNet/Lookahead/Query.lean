import GrammarNet.Lookahead.Ends

/-!
Questions about what can follow a state.
-/

namespace GrammarNet

namespace Network

variable (net : Network)

/-- The symbols that can follow a state with the stacks of a node; no state is followed by none.
Where the stacks end, and at `stop` with an empty stack, the answer has `options.boundary`. -/
def look (graph : StackGraph) (state : Option Nat) (stack : Option Nat) (options : LookaheadOptions)
    (stop : Option Nat := none) : Except LookaheadError SymbolSet :=
  match state with
  | none => .ok ∅
  | some n => Lookahead.walk { net, graph, stop, options } n (graph.resolveRef stack)

/-- The symbols that can follow a state within its rule. -/
def lookLocally (state : Nat) (options : LookaheadOptions) : Except LookaheadError SymbolSet :=
  net.look .empty (some state) none options

/-- A lookahead that decides: it has symbols, and no predicate was met. -/
def deciding (found : SymbolSet) : Option SymbolSet :=
  if found.isEmpty || found.contains Symbol.invalid then none else some found

/-- For each alternative of a state, the symbols that can follow within the rule when no predicate
is looked through, or nothing where they do not decide. -/
def decisionLookahead (state : Option Nat) : Except LookaheadError (List (Option SymbolSet)) :=
  match state.bind net.get? with
  | none => .ok []
  | some s =>
      s.transitions.mapM fun t => do
        let found ← net.lookLocally t.target { seeThroughPredicates := false }
        return deciding found

end Network

end GrammarNet
