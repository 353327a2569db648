import GrammarNet.Lookahead.Query

/-!
The lookahead by recursion.

`Ground.visit` enters a position once, follows the edges of a state in their order and returns to
callers in the order of their return states. It marks a rule around the visit of a call, and lifts
the mark at the end of the rule while it visits what comes after. Nothing bounds its depth, so it is
a partial procedure: `ground.visit n stack marks` is `none` where it does not come to an end.
-/

namespace GrammarNet

namespace Lookahead

/-- What visits share: the positions that were entered, the rules being run and what was found. -/
structure Marks where
  entered : Std.TreeSet (List Nat) := ∅
  running : List Int := []
  found : SymbolSet := ∅

namespace Marks

/-- Notes that a position was entered. -/
def enter (m : Marks) (position : List Nat) : Marks :=
  { m with entered := m.entered.insert position }

/-- Sets whether a rule is being run. -/
def set (m : Marks) (rule : Int) (on : Bool) : Marks :=
  { m with running := setRunning m.running rule on }

/-- Records a symbol. -/
def record (m : Marks) (symbol : Int) : Marks :=
  { m with found := m.found.addSymbol symbol }

/-- Records all symbols of a set. -/
def recordAll (m : Marks) (symbols : SymbolSet) : Marks :=
  { m with found := m.found ∪ symbols }

end Marks

/-- Visits a state with a call stack, and all that can be reached from there without consuming
input. -/
def Ground.visit (ground : Ground) (n : Nat) (stack : CallStack) (m : Marks) :
    ExceptT LookaheadError Option Marks :=
  match ground.net.get? n with
  | none => pure m
  | some s =>
      if m.entered.contains (stack.key n) then pure m
      else
        let entered := m.enter (stack.key n)
        if (ground.stop = some n ∨ s.kind = .ruleStop) ∧ stack.isEmpty then
          pure (entered.record ground.options.boundary)
        else if s.kind = .ruleStop then do
          let left ← (stack.returns ground.graph).foldlM (fun m way =>
            match way with
            | .ended => pure (m.record ground.options.boundary)
            | .resume r rest =>
                if (ground.net.state? r).isSome then ground |>.visit r.toNat rest m
                else throw (.missingReturn r)) (entered.set s.rule false)
          return left.set s.rule (m.running.contains s.rule)
        else
          s.transitions.zipIdx.foldlM (fun m (edge, index) =>
            match edge.label with
            | .call returnTo rule _ =>
                if m.running.contains rule then pure m
                else do
                  let called ← ground |>.visit edge.target (stack.enter ⟨n, index, rule, returnTo⟩)
                    (m.set rule true)
                  return called.set rule false
            | .predicate .. | .precedence _ =>
                if ground.options.seeThroughPredicates then ground |>.visit edge.target stack m
                else pure (m.record Symbol.invalid)
            | .epsilon | .action .. => ground |>.visit edge.target stack m
            | .atom _ | .range .. | .set _ | .notSet _ | .wildcard =>
                pure (m.recordAll (consumed ground.net.maxSymbol edge.label))) entered
partial_fixpoint

end Lookahead

/-- The symbols that can follow a state with the stacks of a node, by recursion. -/
def Network.lookRecursively (net : Network) (graph : StackGraph) (state : Option Nat)
    (stack : Option Nat) (options : LookaheadOptions) (stop : Option Nat := none) :
    ExceptT LookaheadError Option SymbolSet :=
  match state with
  | none => pure ∅
  | some n => do
      let ground : Lookahead.Ground := { net, graph, stop, options }
      let marks ← ground.visit n { base := graph.resolveRef stack } {}
      return marks.found

end GrammarNet
