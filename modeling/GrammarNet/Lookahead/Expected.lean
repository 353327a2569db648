import GrammarNet.Lookahead.Query
import Std.Data.TreeMap

/-!
Follow sets within a rule, kept once computed, and the symbols expected in a parse.

A parse chain lists the states whose calls a parser is in, innermost first; its last item belongs to
the outermost rule. The symbols expected at a state are its follow set and, as far as the ends of
the rules are reached, the follow sets of the states at which the calls go on
(`Follow.expected`). The chain can also be read as a call stack (`StackGraph.ofChain`).
-/

namespace GrammarNet

/-- The states whose calls a parser is in, innermost first. -/
abbrev ParseChain := List Int

namespace Network

/-- The state at which the call of a state goes on. -/
def callFollow (net : Network) (invoking : Int) : Except LookaheadError Nat :=
  match (net.state? invoking).bind (·.call?) with
  | some (_, follow) => .ok follow
  | none => .error (.notACall invoking)

end Network

namespace StackGraph

/-- The node above `n` with a call for each state, outermost first. -/
def enterCalls (g : StackGraph) (net : Network) (n : Nat) :
    List Int → Except LookaheadError (Nat × StackGraph)
  | [] => .ok (n, g)
  | invoking :: rest =>
      match net.callFollow invoking with
      | .error e => .error e
      | .ok follow =>
          let (n, g) := g.single (some n) follow
          enterCalls g net n rest

/-- The call stack of a parse chain. The outermost level has no caller and adds nothing. -/
def ofChain (g : StackGraph) (net : Network) (chain : ParseChain) :
    Except LookaheadError (Nat × StackGraph) :=
  g.enterCalls net root chain.dropLast.reverse

end StackGraph

/-- The follow sets computed so far, by state. -/
structure FollowMemo where
  sets : Std.TreeMap Nat SymbolSet := ∅

namespace FollowMemo

instance : Inhabited FollowMemo := ⟨{}⟩

/-- The follow set of a state, if it was computed. -/
def find? (memo : FollowMemo) (state : Nat) : Option SymbolSet :=
  memo.sets[state]?

/-- Keeps a follow set for a state unless there is one already; gives the one in effect. -/
def publish (memo : FollowMemo) (state : Nat) (symbols : SymbolSet) : SymbolSet × FollowMemo :=
  match memo.find? state with
  | some kept => (kept, memo)
  | none => (symbols, ⟨memo.sets.insert state symbols⟩)

end FollowMemo

/-- A question about follow sets: it may keep some, and may have no answer. -/
abbrev Follow := ExceptT LookaheadError (StateM FollowMemo)

namespace Follow

/-- The outcome of a question. -/
def exec {α : Type} (question : Follow α) (memo : FollowMemo) :
    Except LookaheadError α × FollowMemo :=
  question.run.run memo

section Exec

variable {α β : Type}

@[simp] theorem exec_pure (a : α) (memo : FollowMemo) : exec (pure a) memo = (.ok a, memo) :=
  rfl

@[simp] theorem exec_throw (e : LookaheadError) (memo : FollowMemo) :
    exec (throw e : Follow α) memo = (.error e, memo) :=
  rfl

@[simp] theorem exec_bind (question : Follow α) (next : α → Follow β) (memo : FollowMemo) :
    exec (question >>= next) memo =
      match exec question memo with
      | (.ok a, memo) => exec (next a) memo
      | (.error e, memo) => (.error e, memo) := by
  change StateT.run (ExceptT.run (question >>= next)) memo = _
  rw [ExceptT.run_bind]
  simp only [exec, StateT.run_bind]
  rcases StateT.run (ExceptT.run question) memo with ⟨a | e, memo'⟩ <;> rfl

@[simp] theorem exec_get (memo : FollowMemo) : exec get memo = (.ok memo, memo) :=
  rfl

@[simp] theorem exec_modifyGet (f : FollowMemo → α × FollowMemo) (memo : FollowMemo) :
    exec (modifyGet f) memo = (.ok (f memo).1, (f memo).2) :=
  rfl

@[simp] theorem exec_ofExcept (answer : Except LookaheadError α) (memo : FollowMemo) :
    exec (MonadExcept.ofExcept answer) memo = (answer, memo) := by
  cases answer <;> rfl

end Exec

/-- Asks a question whose failure is part of the answer. -/
def attempt {α : Type} (question : Follow α) : Follow (Except LookaheadError α) :=
  ExceptT.lift question.run

/-- The symbols that can follow a state within its rule, with `Symbol.epsilon` when the end of the
rule is reached. -/
def set (net : Network) (state : Nat) : Follow SymbolSet := do
  match (← get).find? state with
  | some kept => pure kept
  | none =>
      let found ← MonadExcept.ofExcept (net.lookLocally state {})
      modifyGet fun memo => memo.publish state found

/-- The end of the input in place of the end of the outermost rule. -/
def close (expected following : SymbolSet) : SymbolSet :=
  if following.contains Symbol.epsilon then expected.addSymbol Symbol.endOfInput else expected

/-- Goes outwards along a chain as long as the end of a rule is reached, and adds what can follow
there. A negative state ends the chain. -/
def outwards (net : Network) (expected following : SymbolSet) :
    ParseChain → Follow SymbolSet
  | [] => pure (close expected following)
  | invoking :: rest => do
      if 0 ≤ invoking ∧ following.contains Symbol.epsilon then
        let follow ← MonadExcept.ofExcept (net.callFollow invoking)
        let next ← set net follow
        outwards net ((expected ∪ next).remove Symbol.epsilon) next rest
      else pure (close expected following)

/-- The symbols that can follow a state in a parse. -/
def expected (net : Network) (n : Int) (chain : ParseChain) : Follow SymbolSet := do
  if n < 0 ∨ net.states.size ≤ n then throw (.noSuchState n)
  match net.state? n with
  | none => throw (.removedState n)
  | some _ =>
      let following ← set net n.toNat
      if following.contains Symbol.epsilon then
        outwards net (following.remove Symbol.epsilon) following chain
      else pure following

end Follow

end GrammarNet
