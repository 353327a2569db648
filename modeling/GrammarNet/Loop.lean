/-!
Loops that run until they are done, with no bound on the number of rounds.

A loop is given by what one round does to its state (`Round`). `Loop.Ends body s` says that the
loop started in `s` ends; `Loop.run` runs a loop that does. Running recurses on the proof that
the loop ends, so it needs no counter, and `Loop.run_next` and `Loop.run_done` are its two
equations. `Loop.Ends.of_measure` shows that a loop ends by an invariant and a pair of numbers
that goes down lexicographically.
-/

namespace GrammarNet

/-- What one round of a loop gives: the state of the next round, or the result. -/
inductive Round (σ ρ : Type) where
  | next (state : σ)
  | done (result : ρ)

namespace Loop

variable {σ ρ : Type} {body : σ → Round σ ρ}

/-- The state `t` is what one round makes of `s`. -/
def Follows (body : σ → Round σ ρ) (t s : σ) : Prop :=
  body s = .next t

/-- The loop with this body ends when it is started in `s`. -/
abbrev Ends (body : σ → Round σ ρ) (s : σ) : Prop :=
  Acc (Follows body) s

/-- The loop goes from `s` to `t` in some number of rounds. -/
inductive Reaches (body : σ → Round σ ρ) (s : σ) : σ → Prop where
  | start : Reaches body s s
  | next {t u : σ} : Reaches body s t → body t = .next u → Reaches body s u

/-- The result of a loop that ends. -/
def run (body : σ → Round σ ρ) (s : σ) (ends : Ends body s) : ρ :=
  match h : body s with
  | .done result => result
  | .next t => run body t (ends.inv h)
termination_by (⟨s, ends⟩ : { s : σ // Ends body s })
decreasing_by exact h

/-! ### The equations of a run -/

theorem run_done {s : σ} {r : ρ} (ends : Ends body s) (h : body s = .done r) :
    run body s ends = r := by
  rw [run]
  split
  · next h' => exact Round.done.inj (h'.symm.trans h)
  · next h' => exact absurd (h'.symm.trans h) (by simp)

theorem run_next {s t : σ} (ends : Ends body s) (h : body s = .next t) :
    run body s ends = run body t (ends.inv h) := by
  rw [run]
  split
  · next h' => exact absurd (h'.symm.trans h) (by simp)
  · next t' h' =>
      have : t' = t := Round.next.inj (h'.symm.trans h)
      subst this
      rfl

/-- A property that every round keeps holds of the state of the last round, and the result is
what that round gives. -/
theorem run_invariant {motive : σ → Prop} {goal : ρ → Prop}
    (keeps : ∀ s t, motive s → body s = .next t → motive t)
    (last : ∀ s r, motive s → body s = .done r → goal r)
    {s : σ} (ends : Ends body s) (start : motive s) : goal (run body s ends) := by
  induction ends with
  | intro s acc ih =>
      cases h : body s with
      | done r =>
          rw [run_done _ h]
          exact last s r start h
      | next t =>
          rw [run_next _ h]
          exact ih t h (keeps s t start h)

/-- Two loops with one invariant have the same result when their rounds agree as long as it
holds. -/
theorem run_congr {body' : σ → Round σ ρ} (inv : σ → Prop)
    (keeps : ∀ s t, inv s → body s = .next t → inv t) (same : ∀ s, inv s → body' s = body s)
    {s : σ} (ends : Ends body s) (ends' : Ends body' s) (start : inv s) :
    run body' s ends' = run body s ends := by
  induction ends with
  | intro s acc ih =>
      cases h : body s with
      | done r =>
          rw [run_done _ h, run_done ends' ((same s start).trans h)]
      | next t =>
          rw [run_next _ h, run_next ends' ((same s start).trans h)]
          exact ih t h _ (keeps s t start h)

/-! ### The states on the way -/

/-- A property that every round keeps holds in all states that a loop gets to. -/
theorem Reaches.invariant {motive : σ → Prop} (keeps : ∀ s t, motive s → body s = .next t → motive t)
    {s t : σ} (reaches : Reaches body s t) (start : motive s) : motive t := by
  induction reaches with
  | start => exact start
  | next _ round ih => exact keeps _ _ ih round

theorem Reaches.head {s t u : σ} (round : body s = .next t) (reaches : Reaches body t u) :
    Reaches body s u := by
  induction reaches with
  | start => exact .next .start round
  | next _ last ih => exact .next ih last

/-- From a state that a loop gets to, it ends with the same result. -/
theorem Reaches.run_eq {s t : σ} (reaches : Reaches body s t) (ends : Ends body s) :
    ∃ later : Ends body t, run body s ends = run body t later := by
  induction reaches with
  | start => exact ⟨ends, rfl⟩
  | next _ round ih =>
      obtain ⟨later, same⟩ := ih
      exact ⟨later.inv round, same.trans (run_next later round)⟩

/-- The result of a loop is what the last round gives. -/
theorem exists_last {s : σ} (ends : Ends body s) :
    ∃ t, Reaches body s t ∧ body t = .done (run body s ends) := by
  induction ends with
  | intro s acc ih =>
      cases h : body s with
      | done r =>
          rw [run_done _ h]
          exact ⟨s, .start, h⟩
      | next t =>
          rw [run_next _ h]
          obtain ⟨u, reaches, last⟩ := ih t h
          exact ⟨u, reaches.head h, last⟩

/-! ### Showing that a loop ends -/

/-- A loop ends when an invariant holds at its start and, as long as it holds, every round keeps
it and makes a pair of numbers smaller: the first goes down, or it stays and the second does. -/
theorem Ends.of_measure (inv : σ → Prop) (size : σ → Nat × Nat)
    (step : ∀ s t, inv s → body s = .next t →
      inv t ∧ ((size t).1 < (size s).1 ∨ (size t).1 = (size s).1 ∧ (size t).2 < (size s).2))
    {s : σ} (start : inv s) : Ends body s := by
  have wf : WellFounded (Prod.Lex (· < · : Nat → Nat → Prop) (· < · : Nat → Nat → Prop)) :=
    (Prod.lex Nat.lt_wfRel Nat.lt_wfRel).wf
  generalize hn : size s = n
  induction n using wf.induction generalizing s with
  | _ n ih =>
      refine ⟨_, fun t ht => ?_⟩
      obtain ⟨keep, less⟩ := step s t start ht
      refine ih (size t) ?_ keep rfl
      rw [← hn]
      rcases less with h | ⟨h₁, h₂⟩
      · exact (Prod.lex_def).2 (.inl h)
      · exact (Prod.lex_def).2 (.inr ⟨h₁, h₂⟩)

/-- A list has fewer elements of one kind than of a wider kind when it has an element that only the
wider kind admits. With it, what is still to be done goes down when something is marked as done. -/
theorem countP_lt {α : Type} {l : List α} {p q : α → Bool} {a : α}
    (narrow : ∀ x ∈ l, q x = true → p x = true) (mem : a ∈ l) (hp : p a = true)
    (hq : q a = false) : l.countP q < l.countP p := by
  induction l with
  | nil => simp at mem
  | cons b l ih =>
      have hl : l.countP q ≤ l.countP p :=
        List.countP_mono_left fun x hx => narrow x (List.mem_cons_of_mem b hx)
      rw [List.countP_cons, List.countP_cons]
      rcases List.mem_cons.1 mem with rfl | mem
      · simp only [hp, hq, if_true, Bool.false_eq_true, if_false]
        omega
      · have less := ih (fun x hx => narrow x (List.mem_cons_of_mem b hx)) mem
        by_cases hqb : q b = true
        · rw [if_pos hqb, if_pos (narrow b List.mem_cons_self hqb)]
          omega
        · rw [if_neg hqb]
          omega

/-- When more is marked as done, fewer elements of a list are left. -/
theorem countP_not_lt {α : Type} {l : List α} {before after : α → Bool} {a : α} (mem : a ∈ l)
    (fresh : ¬ before a = true) (marked : after a = true)
    (kept : ∀ x, before x = true → after x = true) :
    (l.countP fun x => !after x) < l.countP fun x => !before x := by
  refine countP_lt (a := a) (fun x _ left => ?_) mem ?_ ?_
  · cases known : before x with
    | false => rfl
    | true =>
        rw [kept x known] at left
        cases left
  · rw [(Bool.not_eq_true _).mp fresh, Bool.not_false]
  · rw [marked, Bool.not_true]

/-- Work that was planned in reverse has one piece of it in front. -/
theorem exists_front {α : Type} (x : α) (xs rest : List α) :
    ∃ y l, (x :: xs).reverse ++ rest = y :: l ∧ y ∈ x :: xs := by
  cases same : (x :: xs).reverse with
  | nil => exact absurd (List.reverse_eq_nil_iff.mp same) (List.cons_ne_nil x xs)
  | cons y l =>
      refine ⟨y, l ++ rest, rfl, ?_⟩
      rw [← List.mem_reverse, same]
      exact List.mem_cons_self

/-! ### Running a bounded number of rounds -/

/-- The state after `n` rounds, or the one in which the loop is done before. -/
def stateAfter (body : σ → Round σ ρ) : Nat → σ → σ
  | 0, s => s
  | n + 1, s =>
      match body s with
      | .done _ => s
      | .next t => stateAfter body n t

theorem reaches_stateAfter (body : σ → Round σ ρ) (n : Nat) (s : σ) :
    Reaches body s (stateAfter body n s) := by
  induction n generalizing s with
  | zero => exact .start
  | succ n ih =>
      rw [stateAfter]
      split
      · exact .start
      · next t round => exact (ih t).head round

theorem stateAfter_succ (body : σ → Round σ ρ) (n : Nat) (s : σ) :
    stateAfter body (n + 1) s =
      match body (stateAfter body n s) with
      | .done _ => stateAfter body n s
      | .next t => t := by
  induction n generalizing s with
  | zero => rfl
  | succ n ih =>
      cases round : body s with
      | done r => simp only [stateAfter, round]
      | next t =>
          have first : ∀ m, stateAfter body (m + 1) s = stateAfter body m t := fun m => by
            rw [stateAfter, round]
          rw [first, first, ih t]

theorem stateAfter_next {n : Nat} {s t : σ} (round : body (stateAfter body n s) = .next t) :
    stateAfter body (n + 1) s = t := by
  rw [stateAfter_succ, round]

/-- A loop gets to a state in some number of rounds. -/
theorem Reaches.exists_stateAfter {s t : σ} (reaches : Reaches body s t) :
    ∃ n, stateAfter body n s = t := by
  induction reaches with
  | start => exact ⟨0, rfl⟩
  | next _ round ih =>
      obtain ⟨n, rfl⟩ := ih
      exact ⟨n + 1, stateAfter_next round⟩

/-- What every round keeps, once it holds, holds after all later rounds. -/
theorem stateAfter_keeps {motive : σ → Prop}
    (keeps : ∀ s t, motive s → body s = .next t → motive t) {s : σ} {i j : Nat} (le : i ≤ j)
    (holds : motive (stateAfter body i s)) : motive (stateAfter body j s) := by
  induction le with
  | refl => exact holds
  | step _ ih =>
      rw [stateAfter_succ]
      split
      · exact ih
      · next t round => exact keeps _ t ih round

/-- When something is marked in the round in which it is done, marks stay, and nothing marked is
done, there is one round at most in which it is done. -/
theorem round_unique (acts marked : σ → Prop)
    (marks : ∀ s, acts s → ∃ t, body s = .next t ∧ marked t)
    (keeps : ∀ s t, marked s → body s = .next t → marked t)
    (bars : ∀ s, marked s → ¬ acts s) {s : σ} {i j : Nat} (atI : acts (stateAfter body i s))
    (atJ : acts (stateAfter body j s)) : i = j := by
  have later : ∀ {m n}, acts (stateAfter body m s) → acts (stateAfter body n s) → ¬ m < n := by
    intro m n atM atN less
    obtain ⟨t, round, mark⟩ := marks _ atM
    rw [← stateAfter_next round] at mark
    exact bars _ (stateAfter_keeps keeps less mark) atN
  exact Nat.le_antisymm (Nat.le_of_not_lt (later atJ atI)) (Nat.le_of_not_lt (later atI atJ))

/-- The result after at most `n` rounds, if there is one by then. -/
def runFor (body : σ → Round σ ρ) : Nat → σ → Option ρ
  | 0, _ => none
  | n + 1, s =>
      match body s with
      | .done r => some r
      | .next t => runFor body n t

/-- A bounded run that gives a result shows that the loop ends, with that result. -/
theorem run_eq_of_runFor {n : Nat} {s : σ} {r : ρ} (h : runFor body n s = some r)
    (ends : Ends body s) : run body s ends = r := by
  induction n generalizing s with
  | zero => simp [runFor] at h
  | succ n ih =>
      rw [runFor] at h
      split at h
      · next r' hb => rw [run_done _ hb]; exact Option.some.inj h
      · next t hb => rw [run_next _ hb]; exact ih h _

end Loop

end GrammarNet
