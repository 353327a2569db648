import GrammarNet.Proofs.Configurations
import GrammarNet.Proofs.SameTree

/-!
A lookahead goes down its context level by level, and it does not matter how it treats predicates.

From a state, a walk gets to positions of the level of the state and of the calls it makes, above
whatever context is below (`Stays`). Only from the end of the level does it get to what the context
returns to, and it has then forgotten what it did before. So what is recorded is recorded on the
level of the state, or it is recorded below when the level can end (`records_iff`).

This makes a lookahead follow one stack of its context at a time (`records_iff_along`): the context
matters for its stacks alone.
-/

namespace GrammarNet

open StackGraph

namespace Lookahead

/-- The ground of a lookahead that does not stop early. -/
abbrev Ground.onward (net : Network) (graph : StackGraph) (options : LookaheadOptions) : Ground :=
  { net, graph, options }

/-- A walk gets from one state to the other with these calls, above any node. -/
def Stays (net : Network) (see : Bool) (n m : Nat) (calls : List Frame) : Prop :=
  ∀ graph atEnd base, Reach (.onward net graph ⟨see, atEnd⟩) ⟨n, [], base⟩ ⟨m, calls, base⟩

/-- The symbol is recorded in a state, whatever the stack. -/
def Tells (net : Network) (see : Bool) (m : Nat) (x : Int) : Prop :=
  ∀ graph atEnd stack, Emits (.onward net graph ⟨see, atEnd⟩) ⟨m, stack⟩ x

/-- The symbol is recorded on the level of a state or in a call made there. -/
def Shown (net : Network) (see : Bool) (n : Nat) (x : Int) : Prop :=
  ∃ m calls, Stays net see n m calls ∧ Tells net see m x

/-- The end of the level of a state can be reached. -/
def CanEnd (net : Network) (see : Bool) (n : Nat) : Prop :=
  ∃ stop, Stays net see n stop [] ∧ net.AtStop stop

/-- A walk from a state, above a node, records the symbol. -/
def Records (ground : Ground) (n base : Nat) (x : Int) : Prop :=
  ∃ p, Reach ground ⟨n, [], base⟩ p ∧ Emits ground p x

variable {net : Network} {graph : StackGraph} {see atEnd : Bool}

theorem onward_going (graph : StackGraph) (options : LookaheadOptions) (n : Nat) (stack : CallStack) :
    ¬ Ground.Halts (.onward net graph options) n stack := by
  rintro ⟨stop, -⟩
  cases stop

/-- A move stays above the node, and is then possible above every node, or it leaves the level. -/
theorem Moves.level {p q : Position} (move : Moves (.onward net graph ⟨see, atEnd⟩) p q) :
    (q.stack.base = p.stack.base ∧ ∀ graph atEnd base,
        Moves (.onward net graph ⟨see, atEnd⟩) ⟨p.state, p.stack.calls, base⟩
          ⟨q.state, q.stack.calls, base⟩) ∨
      (p.stack.calls = [] ∧ net.AtStop p.state ∧
        ∃ r c, .call r c ∈ graph.entries p.stack.base ∧ q = ⟨r.toNat, [], c⟩) := by
  cases move with
  | cross hs kind _ ht crosses =>
      refine .inl ?_
      cases crosses with
      | pass pass =>
          exact ⟨rfl, fun _ _ _ => .cross hs kind (onward_going _ _ _ _) ht (.pass pass)⟩
      | call label idle =>
          exact ⟨rfl, fun _ _ _ => .cross hs kind (onward_going _ _ _ _) ht (.call label idle)⟩
  | @back n s r stack rest hs kind _ mem =>
      have hs : net.get? n = some s := hs
      cases CallStack.resume_mem_returns_iff.mp mem with
      | @call f calls _ =>
          refine .inl ⟨rfl, fun graph atEnd base => ?_⟩
          have mem : .resume f.returnTo ⟨calls, base⟩ ∈
              (⟨f :: calls, base⟩ : CallStack).returns graph :=
            CallStack.resume_mem_returns_iff.mpr .call
          exact .back hs kind (onward_going _ _ _ _) mem
      | drop entry => exact .inr ⟨rfl, ⟨_, hs, kind⟩, _, _, entry, rfl⟩

/-- A walk stays on the level it starts on, or it gets to an end of this level and goes on from a
state that the context returns to. -/
theorem Reach.level {n base : Nat} {p : Position}
    (reach : Reach (.onward net graph ⟨see, atEnd⟩) ⟨n, [], base⟩ p) :
    (p.stack.base = base ∧ Stays net see n p.state p.stack.calls) ∨
      (CanEnd net see n ∧ ∃ r c, .call r c ∈ graph.entries base ∧
        Reach (.onward net graph ⟨see, atEnd⟩) ⟨r.toNat, [], c⟩ p) := by
  induction reach with
  | refl => exact .inl ⟨rfl, fun _ _ _ => .refl⟩
  | tail _ move ih =>
      rcases ih with ⟨rfl, stays⟩ | ⟨ends, r, c, mem, rest⟩
      · rcases move.level with ⟨same, above⟩ | ⟨none, stop, r, c, mem, rfl⟩
        · exact .inl ⟨same, fun _ _ _ => (stays _ _ _).tail (above _ _ _)⟩
        · rw [none] at stays
          exact .inr ⟨⟨_, stays, stop⟩, r, c, mem, .refl⟩
      · exact .inr ⟨ends, r, c, mem, rest.tail move⟩

/-- What is recorded in a position is recorded in its state, or it marks the end of the context. -/
theorem Emits.level {p : Position} {x : Int} (emits : Emits (.onward net graph ⟨see, atEnd⟩) p x) :
    Tells net see p.state x ∨ (net.AtStop p.state ∧ p.stack.calls = [] ∧
      .ended ∈ graph.entries p.stack.base ∧ x = LookaheadOptions.boundary ⟨see, atEnd⟩) := by
  cases emits with
  | halt _ halts => exact absurd halts (onward_going _ _ _ _)
  | @ended n s stack hs kind mem =>
      obtain ⟨calls, base⟩ := stack
      cases calls with
      | nil => exact .inr ⟨⟨_, hs, kind⟩, rfl, CallStack.ended_mem_returns_nil.mp mem, rfl⟩
      | cons f calls =>
          rw [CallStack.returns_cons, List.mem_singleton] at mem
          cases mem
  | edge hs kind _ ht shows =>
      refine .inl fun _ _ _ => .edge hs kind (onward_going _ _ _ _) ht ?_
      cases shows with
      | barrier asks closed => exact .barrier asks closed
      | symbol mem => exact .symbol mem

/-- What is recorded is recorded on the level of the state or, when that can end, after it. -/
theorem records_iff {n base : Nat} {x : Int} :
    Records (.onward net graph ⟨see, atEnd⟩) n base x ↔ Shown net see n x ∨
      (CanEnd net see n ∧
        ((.ended ∈ graph.entries base ∧ x = LookaheadOptions.boundary ⟨see, atEnd⟩) ∨
          ∃ r c, .call r c ∈ graph.entries base ∧
            Records (.onward net graph ⟨see, atEnd⟩) r.toNat c x)) := by
  constructor
  · rintro ⟨⟨m, calls, base'⟩, reach, emits⟩
    rcases reach.level with ⟨rfl, stays⟩ | ⟨ends, r, c, mem, rest⟩
    · rcases emits.level with tells | ⟨stop, rfl, mem, rfl⟩
      · exact .inl ⟨m, calls, stays, tells⟩
      · exact .inr ⟨⟨m, stays, stop⟩, .inl ⟨mem, rfl⟩⟩
    · exact .inr ⟨ends, .inr ⟨r, c, mem, ⟨m, calls, base'⟩, rest, emits⟩⟩
  · rintro (⟨m, calls, stays, tells⟩ | ⟨⟨stop, stays, s, hs, kind⟩, ended⟩)
    · exact ⟨_, stays graph atEnd base, tells _ _ _⟩
    · rcases ended with ⟨mem, rfl⟩ | ⟨r, c, mem, p, rest, emits⟩
      · exact ⟨_, stays graph atEnd base, .ended hs kind (CallStack.ended_mem_returns_nil.mpr mem)⟩
      · have back : Moves (.onward net graph ⟨see, atEnd⟩) ⟨stop, [], base⟩ ⟨r.toNat, [], c⟩ :=
          .back hs kind (onward_going _ _ _ _) (CallStack.resume_mem_returns_iff.mpr (.drop mem))
        exact ⟨p, ((stays graph atEnd base).tail back).trans rest, emits⟩

/-! ### One stack at a time -/

/-- The symbol is recorded when a walk goes on with the states of a stack, one after another. -/
def Along (net : Network) (options : LookaheadOptions) (x : Int) : Nat → List Int → Prop
  | n, [] => Shown net options.seeThroughPredicates n x ∨
      (CanEnd net options.seeThroughPredicates n ∧ x = options.boundary)
  | n, r :: stack => Shown net options.seeThroughPredicates n x ∨
      (CanEnd net options.seeThroughPredicates n ∧ Along net options x r.toNat stack)

theorem Along.of_shown {options : LookaheadOptions} {n : Nat} {x : Int}
    (shown : Shown net options.seeThroughPredicates n x) (stack : List Int) :
    Along net options x n stack := by
  cases stack with
  | nil => exact .inl shown
  | cons r stack => exact .inl shown

/-- What is recorded above a node is recorded along one of the stacks of the node. -/
theorem records_iff_along {options : LookaheadOptions} {n base : Nat} {x : Int} :
    Records (.onward net graph options) n base x ↔
      ∃ stack, graph.HasStack base stack ∧ Along net options x n stack := by
  constructor
  · intro records
    induction base using Nat.strongRecOn generalizing n with
    | ind base ih =>
        rcases records_iff.mp records with shown | ⟨ends, ⟨mem, rfl⟩ | ⟨r, c, mem, below⟩⟩
        · obtain ⟨stack, has⟩ := graph.exists_hasStack base
          exact ⟨stack, has, .of_shown shown stack⟩
        · exact ⟨[], .ended mem, .inr ⟨ends, rfl⟩⟩
        · obtain ⟨stack, has, along⟩ := ih c (caller_lt mem rfl) below
          exact ⟨r :: stack, .call mem has, .inr ⟨ends, along⟩⟩
  · rintro ⟨stack, has, along⟩
    induction has generalizing n with
    | ended mem =>
        rcases along with shown | ⟨ends, rfl⟩
        · exact records_iff.mpr (.inl shown)
        · exact records_iff.mpr (.inr ⟨ends, .inl ⟨mem, rfl⟩⟩)
    | call mem _ ih =>
        rcases along with shown | ⟨ends, along⟩
        · exact records_iff.mpr (.inl shown)
        · exact records_iff.mpr (.inr ⟨ends, .inr ⟨_, _, mem, ih along⟩⟩)

end Lookahead

end GrammarNet
