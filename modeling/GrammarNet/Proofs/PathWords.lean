import GrammarNet.Network.Basic
import Mathlib.Computability.Language
import Mathlib.Order.CompletePartialOrder

/-!
The words along the paths of a graph.

A graph gives each state its edges, and each edge spells the words of its label, where the words of
a call are those of the rule it calls. `wordsTo z n` are the words along the paths that lead from
`n` to `z` and meet `z` only at their end. They obey one equation for each state, as in a grammar
(`wordsTo_of_ne`). Beyond these equations there are three facts:

* `wordsTo_congr`: nothing counts but the edges of the states on the way (`Region`).
* `wordsTo_through`: a path out of a region leads through the only state behind it.
* `wordsTo_loop`: where an edge leads back, the path before it may be repeated.
-/

namespace GrammarNet

open Computability

/-! ### Words of edges -/

/-- Where an edge leads within the rule: behind the rule that it calls, else to its target. -/
def Transition.next (t : Transition) : Nat :=
  t.label.follow?.getD t.target

@[simp] theorem Transition.next_epsilon (n : Nat) : (Transition.epsilon n).next = n :=
  rfl

namespace Label

/-- The words that an edge with this label spells, given the largest symbol and the words of the
rules. -/
def words (max : Int) (env : Int → Language Int) : Label → Language Int
  | atom a => {w | w = [a]}
  | range lo hi => {w | ∃ x, (lo ≤ x ∧ x ≤ hi) ∧ w = [x]}
  | set s => {w | ∃ x, x ∈ s ∧ w = [x]}
  | notSet s => {w | ∃ x, ((Symbol.firstUser ≤ x ∧ x ≤ max) ∧ ¬x ∈ s) ∧ w = [x]}
  | wildcard => {w | ∃ x, (Symbol.firstUser ≤ x ∧ x ≤ max) ∧ w = [x]}
  | call _ rule _ => env rule
  | epsilon | predicate .. | precedence _ | action .. => 1

variable {max : Int} {env : Int → Language Int}

@[simp] theorem words_epsilon : words max env .epsilon = 1 :=
  rfl

/-- An edge that consumes spells the symbols that it accepts. -/
theorem mem_words_of_consuming {l : Label} (consuming : l.isEpsilon = false) {w : List Int} :
    w ∈ l.words max env ↔ ∃ x, l.accepts Symbol.firstUser max x = true ∧ w = [x] := by
  cases l with
  | atom a =>
      simp only [accepts, symbols, SymbolSet.contains_iff, SymbolSet.mem_single]
      constructor
      · exact fun here => ⟨a, rfl, here⟩
      · rintro ⟨x, same, here⟩
        exact same ▸ here
  | range lo hi =>
      simp only [accepts, symbols, SymbolSet.contains_iff, SymbolSet.mem_interval]
      exact Iff.rfl
  | set s =>
      simp only [accepts, symbols, SymbolSet.contains_iff]
      exact Iff.rfl
  | notSet s =>
      simp only [accepts, Bool.and_eq_true, decide_eq_true_eq, Bool.not_eq_true',
        ← Bool.not_eq_true, SymbolSet.contains_iff]
      exact Iff.rfl
  | wildcard =>
      simp only [accepts, Bool.and_eq_true, decide_eq_true_eq]
      exact Iff.rfl
  | epsilon | call | predicate | precedence | action => cases consuming

/-- An edge that neither consumes nor calls spells nothing. -/
theorem words_of_free {l : Label} (free : l.isEpsilon = true) (plain : l.follow? = none) :
    l.words max env = 1 := by
  cases l with
  | call follow rule precedence => cases plain
  | epsilon | predicate | precedence | action => rfl
  | atom | range | set | notSet | wildcard => cases free

end Label

/-! ### Words along paths -/

/-- A path from a state to a state with a word along it. It does not go on at the state at which it
has to halt. -/
inductive Path (ways : Nat → List Transition) (max : Int) (env : Int → Language Int)
    (halt : Option Nat) : Nat → Nat → List Int → Prop where
  | here {n : Nat} : Path ways max env halt n n []
  | step {n m : Nat} {t : Transition} {u w : List Int} :
      halt ≠ some n → t ∈ ways n → u ∈ t.label.words max env →
      Path ways max env halt t.next m w → Path ways max env halt n m (u ++ w)

/-- The words along the paths that meet their last state only at their end. -/
def wordsTo (ways : Nat → List Transition) (max : Int) (env : Int → Language Int) (z n : Nat) :
    Language Int :=
  {w | Path ways max env (some z) n z w}

section Words

variable {ways ways' : Nat → List Transition} {max : Int} {env : Int → Language Int} {n m x z : Nat}
  {t : Transition} {w : List Int}

theorem mem_listSum {α : Type} {f : α → Language Int} {l : List α} :
    w ∈ (l.map f).sum ↔ ∃ a ∈ l, w ∈ f a := by
  induction l with
  | nil => simp
  | cons a l ih =>
      rw [List.map_cons, List.sum_cons, Language.mem_add, ih]
      simp

theorem wordsTo_step {u : List Int} (apart : n ≠ z) (mem : t ∈ ways n)
    (spelled : u ∈ t.label.words max env) (rest : w ∈ wordsTo ways max env z t.next) :
    u ++ w ∈ wordsTo ways max env z n :=
  Path.step (fun same => apart (Option.some.inj same).symm) mem spelled rest

theorem nil_mem_wordsTo : [] ∈ wordsTo ways max env z z :=
  Path.here

/-- Induction on the length of a path to `z`. -/
theorem wordsTo_induction {P : Nat → List Int → Prop} (last : P z [])
    (step : ∀ n t u w, n ≠ z → t ∈ ways n → u ∈ t.label.words max env →
      w ∈ wordsTo ways max env z t.next → P t.next w → P n (u ++ w))
    (mem : w ∈ wordsTo ways max env z n) : P n w := by
  have all : ∀ n m w, Path ways max env (some z) n m w → m = z → P n w := by
    intro n m w path
    induction path with
    | here =>
        rintro rfl
        exact last
    | step apart edge spelled rest ih =>
        rintro rfl
        exact step _ _ _ _ (fun same => apart (same ▸ rfl)) edge spelled rest (ih rfl)
  exact all n z w mem rfl

theorem wordsTo_self : wordsTo ways max env z z = 1 := by
  ext w
  rw [Language.mem_one]
  constructor
  · rintro (_ | ⟨apart, -⟩)
    · rfl
    · exact absurd rfl apart
  · rintro rfl
    exact .here

/-- A path goes along one of the edges. -/
theorem wordsTo_of_ne (apart : n ≠ z) : wordsTo ways max env z n =
    ((ways n).map fun t => t.label.words max env * wordsTo ways max env z t.next).sum := by
  ext w
  rw [mem_listSum]
  constructor
  · intro path
    cases path with
    | here => exact absurd rfl apart
    | step _ mem spelled rest => exact ⟨_, mem, Language.append_mem_mul spelled rest⟩
  · rintro ⟨t, mem, spelled⟩
    obtain ⟨u, hu, v, hv, rfl⟩ := Language.mem_mul.mp spelled
    exact wordsTo_step apart mem hu hv

/-- From a state without edges no other state is reached. -/
theorem wordsTo_of_idle (idle : ways n = []) (apart : n ≠ z) : wordsTo ways max env z n = 0 := by
  rw [wordsTo_of_ne apart, idle]
  rfl

theorem wordsTo_of_edge (edge : ways n = [t]) (apart : n ≠ z) :
    wordsTo ways max env z n = t.label.words max env * wordsTo ways max env z t.next := by
  rw [wordsTo_of_ne apart, edge]
  simp

theorem wordsTo_of_epsilon (edge : ways n = [.epsilon m]) (apart : n ≠ z) :
    wordsTo ways max env z n = wordsTo ways max env z m := by
  rw [wordsTo_of_edge edge apart, Transition.epsilon, Label.words_epsilon, one_mul]
  rfl

/-- Two edges that spell nothing. -/
theorem wordsTo_of_fork {m' : Nat} (edges : ways n = [.epsilon m, .epsilon m']) (apart : n ≠ z) :
    wordsTo ways max env z n = wordsTo ways max env z m + wordsTo ways max env z m' := by
  rw [wordsTo_of_ne apart, edges]
  simp [Transition.epsilon, Transition.next, Label.follow?]

theorem Path.free {halt : Option Nat} (path : Path ways max env halt n m w) :
    Path ways max env none n m w := by
  induction path with
  | here => exact .here
  | step _ mem spelled _ ih => exact .step (by simp) mem spelled ih

theorem Path.trans {u : List Int} (first : Path ways max env none n m u)
    (rest : Path ways max env none m z w) : Path ways max env none n z (u ++ w) := by
  induction first with
  | here => exact rest
  | step going mem spelled _ ih =>
      rw [List.append_assoc]
      exact .step going mem spelled (ih rest)

/-- A path meets its last state for the first time, and leads from it to itself then. -/
theorem Path.split (path : Path ways max env none n z w) :
    ∃ u v, w = u ++ v ∧ u ∈ wordsTo ways max env z n ∧ Path ways max env none z z v := by
  induction path with
  | here => exact ⟨[], [], rfl, nil_mem_wordsTo, .here⟩
  | @step n z t a w going mem spelled rest ih =>
      by_cases last : n = z
      · subst last
        exact ⟨[], a ++ w, rfl, nil_mem_wordsTo, .step going mem spelled rest⟩
      · obtain ⟨u, v, rfl, first, loop⟩ := ih
        exact ⟨a ++ u, v, (List.append_assoc ..).symm, wordsTo_step last mem spelled first, loop⟩

/-- A path cannot go on at a state without edges. -/
theorem Path.to_halt (path : Path ways max env none n z w) (idle : ways z = []) :
    w ∈ wordsTo ways max env z n := by
  induction path with
  | here => exact .here
  | @step n z t u w _ mem spelled _ ih =>
      refine wordsTo_step ?_ mem spelled (ih idle)
      rintro rfl
      rw [idle] at mem
      cases mem

/-- The words along paths are the least that obey the equations. -/
theorem wordsTo_le {A : Nat → Language Int} (last : 1 ≤ A z)
    (step : ∀ n, n ≠ z → ∀ t ∈ ways n, t.label.words max env * A t.next ≤ A n) (n : Nat) :
    wordsTo ways max env z n ≤ A n := by
  intro w path
  refine wordsTo_induction (P := fun n w => w ∈ A n) (last rfl) ?_ path
  intro n t u w apart mem spelled _ ih
  exact step n apart t mem (Language.append_mem_mul spelled ih)

/-- A path may begin with any edge. -/
theorem mul_wordsTo_le (apart : n ≠ z) (mem : t ∈ ways n) :
    t.label.words max env * wordsTo ways max env z t.next ≤ wordsTo ways max env z n := by
  rintro w spelled
  obtain ⟨u, hu, v, hv, rfl⟩ := Language.mem_mul.mp spelled
  exact wordsTo_step apart mem hu hv

end Words

/-! ### Regions -/

/-- The edges of the states of the region lead into the region or to the state behind it. -/
structure Region (ways : Nat → List Transition) (exit : Nat) (R : Nat → Prop) : Prop where
  outside : ¬R exit
  step : ∀ n, R n → ∀ t ∈ ways n, t.next = exit ∨ R t.next

section Region

variable {ways ways' : Nat → List Transition} {max : Int} {env : Int → Language Int} {n x z : Nat}
  {R : Nat → Prop}

theorem Region.congr (region : Region ways x R) (same : ∀ n, R n → ways' n = ways n) :
    Region ways' x R where
  outside := region.outside
  step := fun n inside t mem => region.step n inside t (same n inside ▸ mem)

theorem Region.wordsTo_le (region : Region ways x R) (same : ∀ n, R n → ways' n = ways n)
    (start : n = x ∨ R n) : wordsTo ways max env x n ≤ wordsTo ways' max env x n := by
  intro w path
  refine wordsTo_induction
    (P := fun n w => n = x ∨ R n → w ∈ wordsTo ways' max env x n) (fun _ => .here) ?_ path start
  rintro n t u w apart mem spelled - ih (rfl | inside)
  · exact absurd rfl apart
  · exact wordsTo_step apart (same n inside ▸ mem) spelled (ih (region.step n inside t mem))

/-- The words along paths through a region depend on nothing but the edges in the region. -/
theorem Region.wordsTo_congr (region : Region ways x R) (same : ∀ n, R n → ways' n = ways n)
    (start : n = x ∨ R n) : wordsTo ways' max env x n = wordsTo ways max env x n :=
  le_antisymm ((region.congr same).wordsTo_le (fun n inside => (same n inside).symm) start)
    (region.wordsTo_le same start)

/-- A path that leads out of a region leads through the state behind it. -/
theorem Region.wordsTo_through (region : Region ways x R) (out : ¬R z) (start : n = x ∨ R n) :
    wordsTo ways max env z n = wordsTo ways max env x n * wordsTo ways max env z x := by
  apply le_antisymm
  · intro w path
    refine wordsTo_induction
      (P := fun n w => n = x ∨ R n → w ∈ wordsTo ways max env x n * wordsTo ways max env z x)
      ?_ ?_ path start
    · rintro (rfl | inside)
      · exact Language.append_mem_mul nil_mem_wordsTo nil_mem_wordsTo
      · exact absurd inside out
    · rintro n t u w apart mem spelled rest ih (rfl | inside)
      · exact Language.mem_mul.mpr
          ⟨[], nil_mem_wordsTo, u ++ w, wordsTo_step apart mem spelled rest, rfl⟩
      · obtain ⟨v₁, first, v₂, second, rfl⟩ :=
          Language.mem_mul.mp (ih (region.step n inside t mem))
        have inner : n ≠ x := fun same => region.outside (same ▸ inside)
        rw [← List.append_assoc]
        exact Language.append_mem_mul (wordsTo_step inner mem spelled first) second
  · intro w spelled
    obtain ⟨u, first, v, second, rfl⟩ := Language.mem_mul.mp spelled
    refine wordsTo_induction (P := fun n u => n = x ∨ R n → u ++ v ∈ wordsTo ways max env z n)
      (fun _ => second) ?_ first start
    rintro n t u w apart mem spelled - ih (rfl | inside)
    · exact absurd rfl apart
    · rw [List.append_assoc]
      have inner : n ≠ z := fun same => out (same ▸ inside)
      exact wordsTo_step inner mem spelled (ih (region.step n inside t mem))

end Region

/-! ### Loops -/

section Loops

variable {ways : Nat → List Transition} {max : Int} {env : Int → Language Int} {s e z : Nat}

/-- The graph without the edges of a state. -/
def cut (ways : Nat → List Transition) (s : Nat) : Nat → List Transition :=
  Function.update ways s []

@[simp] theorem cut_self : cut ways s s = [] :=
  Function.update_self ..

theorem cut_of_ne {n : Nat} (apart : n ≠ s) : cut ways s n = ways n :=
  Function.update_of_ne apart ..

theorem wordsTo_cut_le (n : Nat) :
    wordsTo (cut ways s) max env z n ≤ wordsTo ways max env z n := by
  refine wordsTo_le (le_of_eq wordsTo_self.symm) (fun n apart t mem => ?_) n
  refine mul_wordsTo_le apart ?_
  by_cases here : n = s
  · rw [here, cut_self] at mem
    cases mem
  · rwa [cut_of_ne here] at mem

/-- A path up to the state whose edges are cut, and then on. -/
theorem wordsTo_cut_mul_le (idle : ways z = []) (n : Nat) :
    wordsTo (cut ways s) max env s n * wordsTo ways max env z s ≤ wordsTo ways max env z n := by
  intro w spelled
  obtain ⟨u, first, v, second, rfl⟩ := Language.mem_mul.mp spelled
  refine wordsTo_induction (P := fun n u => u ++ v ∈ wordsTo ways max env z n) second ?_ first
  intro n t u w apart mem spelled _ ih
  rw [cut_of_ne apart] at mem
  have inner : n ≠ z := by
    rintro rfl
    rw [idle] at mem
    cases mem
  rw [List.append_assoc]
  exact wordsTo_step inner mem spelled ih

/-- Where the only edge of a state leads back, what lies between may be repeated. -/
theorem wordsTo_loop (back : ways s = [.epsilon e]) (idle : ways z = []) (apart : s ≠ z) :
    wordsTo ways max env z e =
      (wordsTo (cut ways s) max env s e)∗ * wordsTo (cut ways s) max env z e := by
  apply le_antisymm
  · -- every state leads to `z` on a path without the edge, or up to the edge and on from there
    have bound : ∀ n, wordsTo ways max env z n ≤
        wordsTo (cut ways s) max env z n +
          wordsTo (cut ways s) max env s n *
            ((wordsTo (cut ways s) max env s e)∗ * wordsTo (cut ways s) max env z e) := by
      refine wordsTo_le ?_ fun n other t mem => ?_
      · rw [wordsTo_self]
        exact le_self_add
      · by_cases here : n = s
        · subst here
          rw [back, List.mem_singleton] at mem
          subst mem
          rw [wordsTo_self, one_mul, Transition.next_epsilon, Transition.epsilon,
            Label.words_epsilon, one_mul]
          refine le_add_left (add_le ?_ ?_)
          · exact le_mul_of_one_le_left' one_le_kstar
          · rw [← mul_assoc]
            exact mul_le_mul' mul_kstar_le_kstar le_rfl
        · have mem' : t ∈ cut ways s n := by rwa [cut_of_ne here]
          rw [mul_add, ← mul_assoc]
          exact add_le_add (mul_wordsTo_le other mem')
            (mul_le_mul' (mul_wordsTo_le here mem') le_rfl)
    refine (bound e).trans (add_le ?_ ?_)
    · exact le_mul_of_one_le_left' one_le_kstar
    · rw [← mul_assoc]
      exact mul_le_mul' mul_kstar_le_kstar le_rfl
  · refine kstar_mul_le (wordsTo_cut_le e) ?_
    calc wordsTo (cut ways s) max env s e * wordsTo ways max env z e
        = wordsTo (cut ways s) max env s e * wordsTo ways max env z s := by
          rw [wordsTo_of_epsilon back apart]
      _ ≤ wordsTo ways max env z e := wordsTo_cut_mul_le idle e

end Loops

end GrammarNet
