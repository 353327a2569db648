import GrammarNet.Proofs.LevelWalks
import GrammarNet.Proofs.Shortening

/-!
What a lookahead that looks through predicates finds, one level of the context at a time.

The symbols found are those consumed on the level of the state, and those of the levels below when
the level can end (`finds_iff`).
-/

namespace GrammarNet

open StackGraph

namespace Lookahead

/-- A walk gets from one state to the other with these calls, above any node. -/
def Within (net : Network) (n m : Nat) (calls : List Frame) : Prop :=
  ∀ graph atEnd base, Reach (.clear net graph atEnd) ⟨n, [], base⟩ ⟨m, calls, base⟩

/-- The symbol is consumed on the level of a state or in a call made there. -/
def Opens (net : Network) (n : Nat) (x : Int) : Prop :=
  ∃ m calls, Within net n m calls ∧ net.Consumes m x

/-- The level of a state can end without a symbol being consumed. -/
def RunsOut (net : Network) (n : Nat) : Prop :=
  ∃ stop, Within net n stop [] ∧ net.AtStop stop

variable {net : Network} {graph : StackGraph} {atEnd : Bool}

/-- A state that consumes the symbol records it, whatever the stack. -/
theorem consumes_iff_tells {m : Nat} {x : Int} : net.Consumes m x ↔ Tells net true m x := by
  constructor
  · intro consumes graph atEnd stack
    exact (emits_iff (free_clear net graph atEnd)).mpr (.inl consumes)
  · intro tells
    -- With a call on the stack, the state cannot be the end of all.
    have emits := tells .empty false ⟨[⟨m, 0, 0, m⟩], root⟩
    rcases (emits_iff (free_clear net .empty false)).mp emits with consumes | ⟨-, ends⟩
    · exact consumes
    · cases ends.2.1

theorem opens_iff_shown {n : Nat} {x : Int} : Opens net n x ↔ Shown net true n x :=
  exists_congr fun _ => exists_congr fun _ => and_congr_right fun _ => consumes_iff_tells

theorem finds_iff_records {n base : Nat} {x : Int} :
    Finds net graph atEnd n base x ↔ Records (.clear net graph atEnd) n base x :=
  exists_congr fun _ => and_congr_right fun _ => (emits_iff (free_clear net graph atEnd)).symm

/-- The symbols found are those of the level and, when it can end, those found after it. -/
theorem finds_iff {n base : Nat} {x : Int} :
    Finds net graph atEnd n base x ↔ Opens net n x ∨
      (RunsOut net n ∧
        ((.ended ∈ graph.entries base ∧
            x = LookaheadOptions.boundary { addEndOfInput := atEnd }) ∨
          ∃ r c, .call r c ∈ graph.entries base ∧ Finds net graph atEnd r.toNat c x)) := by
  have ends : RunsOut net n ↔ CanEnd net true n := Iff.rfl
  simp only [finds_iff_records, opens_iff_shown, ends]
  exact records_iff

/-- Where the context is empty, the end of the level is the end of all. -/
theorem finds_root_iff {n : Nat} {x : Int} :
    Finds net graph atEnd n root x ↔ Opens net n x ∨
      (RunsOut net n ∧ x = LookaheadOptions.boundary { addEndOfInput := atEnd }) := by
  have entries : graph.entries root = [.ended] := rfl
  rw [finds_iff, entries]
  simp

/-- Within the rule of a state, the end of the level is the end of the rule. -/
theorem finds_local_iff {n : Nat} {x : Int} :
    Finds net .empty false n root x ↔ Opens net n x ∨ (RunsOut net n ∧ x = Symbol.epsilon) :=
  finds_root_iff

/-- Where the context returns to one state, the walk goes on there. -/
theorem finds_call_iff {n base c : Nat} {r x : Int} (entries : graph.entries base = [.call r c]) :
    Finds net graph atEnd n base x ↔
      Opens net n x ∨ (RunsOut net n ∧ Finds net graph atEnd r.toNat c x) := by
  rw [finds_iff, entries]
  refine or_congr_right (and_congr_right fun _ => ?_)
  constructor
  · rintro (⟨mem, -⟩ | ⟨r', c', mem, finds⟩)
    · simp at mem
    · cases List.mem_singleton.mp mem
      exact finds
  · intro finds
    exact .inr ⟨r, c, List.mem_cons_self, finds⟩

end Lookahead

end GrammarNet
