import GrammarNet.Proofs.PathWords

/-!
Pieces of a graph that is still growing.

New edges begin only at open states. A piece from one state to another is settled when no path
through it meets an open state before its end, so that its words stay what they are however the
graph grows (`Settled.grow`). The words of a piece are a function of the words of the rules.

Pieces are joined by edges that begin where a piece ends or at a new state. For each way to join
pieces there is one lemma, and it needs to know nothing of the pieces but that they are settled:
`Settled.chain` (one after the other), `Settled.choice` (one of several), `Settled.star` and
`Settled.plus` (again and again).
-/

namespace GrammarNet

open Computability

/-- The words of a piece, given the words of the rules. -/
abbrev Meaning := (Int → Language Int) → Language Int

section

variable {ways ways' : Nat → List Transition} {max : Int} {Open Open' : Nat → Prop}
  {n m x z : Nat} {L M : Meaning}

/-! ### Paths that meet no open state -/

/-- The state is in a region before `z` in which no state is open. -/
def Within (ways : Nat → List Transition) (Open : Nat → Prop) (z n : Nat) : Prop :=
  ∃ R, Region ways z R ∧ (∀ m, R m → ¬Open m) ∧ R n

theorem Within.not_open (within : Within ways Open z n) : ¬Open n := by
  obtain ⟨R, -, closed, inside⟩ := within
  exact closed n inside

/-- All these regions together are one. -/
theorem within_region : Region ways z (Within ways Open z) where
  outside := by
    rintro ⟨R, region, -, inside⟩
    exact region.outside inside
  step := by
    rintro n ⟨R, region, closed, inside⟩ t mem
    exact (region.step n inside t mem).imp_right fun next => ⟨R, region, closed, next⟩

/-- States are within when none of them is open and their edges lead to such states again, or to
states that are within, or to the end. -/
theorem within_of_closed (R : Nat → Prop)
    (closed : ∀ n, R n → n ≠ z ∧ ¬Open n ∧
      ∀ t ∈ ways n, t.next = z ∨ Within ways Open z t.next ∨ R t.next)
    (start : R n) : Within ways Open z n := by
  refine ⟨fun n => Within ways Open z n ∨ R n, ⟨?_, ?_⟩, ?_, .inr start⟩
  · rintro (within | inside)
    · exact within_region.outside within
    · exact (closed z inside).1 rfl
  · rintro n (within | inside) t mem
    · exact (within_region.step n within t mem).imp_right .inl
    · exact (closed n inside).2.2 t mem
  · rintro n (within | inside)
    · exact within.not_open
    · exact (closed n inside).2.1

/-- A state is within when its edges lead to the end or to states that are. -/
theorem within_of_step (apart : n ≠ z) (inner : ¬Open n)
    (step : ∀ t ∈ ways n, t.next = z ∨ Within ways Open z t.next) : Within ways Open z n := by
  refine within_of_closed (· = n) ?_ rfl
  rintro m rfl
  exact ⟨apart, inner, fun t mem => (step t mem).imp_right .inl⟩

/-- A region that leads to another one. -/
theorem Within.trans (first : Within ways Open x n) (rest : x = z ∨ Within ways Open z x)
    (last : Open z) : Within ways Open z n := by
  refine within_of_closed (Within ways Open x) (fun m within => ?_) first
  refine ⟨fun same => within.not_open (same ▸ last), within.not_open, fun t mem => ?_⟩
  rcases within_region.step m within t mem with rfl | next
  · exact rest.imp_right .inl
  · exact .inr (.inr next)

theorem Within.grow (within : Within ways Open z n) (same : ∀ m, ¬Open m → ways' m = ways m)
    (fewer : ∀ m, Open' m → Open m) : Within ways' Open' z n := by
  obtain ⟨R, region, closed, inside⟩ := within
  exact ⟨R, region.congr fun m inside => same m (closed m inside),
    fun m inside opened => closed m inside (fewer m opened), inside⟩

/-! ### Settled pieces -/

/-- The paths from `n` to `z` have these words and meet no open state before their end. -/
structure Settled (ways : Nat → List Transition) (max : Int) (Open : Nat → Prop) (n z : Nat)
    (L : Meaning) : Prop where
  within : n = z ∨ Within ways Open z n
  words : ∀ env, wordsTo ways max env z n = L env

/-- A piece stays settled when edges are added to open states and states are closed. -/
theorem Settled.grow (piece : Settled ways max Open n z L)
    (same : ∀ m, ¬Open m → ways' m = ways m) (fewer : ∀ m, Open' m → Open m) :
    Settled ways' max Open' n z L where
  within := piece.within.imp_right fun within => within.grow same fewer
  words := by
    intro env
    rw [← piece.words env]
    exact within_region.wordsTo_congr (fun m within => same m within.not_open) piece.within

/-- What leads through a piece to an open state leads to its end first. -/
theorem Settled.through (piece : Settled ways max Open n x L) (last : Open z)
    (env : Int → Language Int) :
    wordsTo ways max env z n = L env * wordsTo ways max env z x := by
  rw [← piece.words env]
  exact within_region.wordsTo_through (fun within => within.not_open last) piece.within

theorem Settled.here : Settled ways max Open z z fun _ => 1 where
  within := .inl rfl
  words := fun _ => wordsTo_self

/-- A single edge. -/
theorem Settled.edge {t : Transition} (edge : ways n = [t]) (inner : ¬Open n) (apart : n ≠ z)
    (next : t.next = z) : Settled ways max Open n z (t.label.words max) where
  within := by
    refine .inr (within_of_step apart inner fun t' mem => ?_)
    rw [edge, List.mem_singleton] at mem
    exact .inl (mem ▸ next)
  words := by
    intro env
    rw [wordsTo_of_edge edge apart, next, wordsTo_self, mul_one]

/-- A way into a piece. -/
theorem Settled.enter (piece : Settled ways max Open m z L) (edge : ways n = [.epsilon m])
    (inner : ¬Open n) (last : Open z) : Settled ways max Open n z L := by
  have apart : n ≠ z := fun same => inner (same ▸ last)
  refine ⟨.inr (within_of_step apart inner fun t mem => ?_), fun env => ?_⟩
  · rw [edge, List.mem_singleton] at mem
    subst mem
    exact piece.within
  · rw [wordsTo_of_epsilon edge apart, piece.words]

/-- One piece after the other. -/
theorem Settled.chain (first : Settled ways max Open n x L) (second : Settled ways max Open m z M)
    (edge : ways x = [.epsilon m]) (inner : ¬Open x) (last : Open z) :
    Settled ways max Open n z fun env => L env * M env := by
  have rest := second.enter edge inner last
  refine ⟨?_, fun env => by rw [first.through last, rest.words]⟩
  rcases first.within with rfl | within
  · exact rest.within
  · exact .inr (within.trans rest.within last)

/-- A piece and the way out of it. -/
theorem Settled.leave (piece : Settled ways max Open n x L) (edge : ways x = [.epsilon z])
    (inner : ¬Open x) (last : Open z) : Settled ways max Open n z L := by
  simpa using piece.chain .here edge inner last

/-- One of several pieces that end at the same state. -/
theorem Settled.choice {branches : List (Nat × Meaning)}
    (pieces : ∀ b ∈ branches, Settled ways max Open b.1 z b.2)
    (edges : ways n = branches.map fun b => .epsilon b.1) (inner : ¬Open n) (last : Open z) :
    Settled ways max Open n z fun env => (branches.map fun b => b.2 env).sum := by
  have apart : n ≠ z := fun same => inner (same ▸ last)
  refine ⟨.inr (within_of_step apart inner fun t mem => ?_), fun env => ?_⟩
  · rw [edges] at mem
    obtain ⟨b, branch, rfl⟩ := List.mem_map.mp mem
    exact (pieces b branch).within
  · rw [wordsTo_of_ne apart, edges, List.map_map]
    refine congrArg List.sum (List.map_congr_left fun b mem => ?_)
    rw [← (pieces b mem).words env]
    exact one_mul _

/-! ### Pieces that may be repeated

The piece in a loop is settled before the edges of the loop are there: the state at which the loop
closes and the state behind it are still open for it. -/

section Loops

variable {Before : Nat → Prop} {a b c k : Nat}

/-- Through a piece to a state that was open before, in a graph in which another one is cut. -/
theorem Settled.through_cut (piece : Settled ways max Before n x L) (back : Before c)
    (last : Before z) (env : Int → Language Int) :
    wordsTo (cut ways c) max env z n = L env * wordsTo (cut ways c) max env z x := by
  have same : ∀ m, ¬Before m → cut ways c m = ways m := fun m inner =>
    cut_of_ne fun here => inner (here ▸ back)
  exact (piece.grow same fun _ opened => opened).through last env

/-- A loop that is entered before the piece: its entry `k` leads to the piece, by way of `a`, or to
the end `z`, and the end of the piece leads back to `k`, by way of `b` and `c`. -/
theorem Settled.star (piece : Settled ways max Before n x L) (fewer : ∀ m, Open m → Before m)
    (entry : ways k = [.epsilon a, .epsilon z]) (start : ways a = [.epsilon n])
    (stop : ways x = [.epsilon b]) (close : ways b = [.epsilon c]) (back : ways c = [.epsilon k])
    (idle : ways z = []) (inner : ∀ m ∈ [k, a, x, b, c], ¬Open m) (last : Open z)
    (fresh : Before c) (apart : c ∉ [k, a, x, b]) :
    Settled ways max Open k z fun env => (L env)∗ := by
  simp only [List.mem_cons, List.not_mem_nil, or_false, forall_eq_or_imp, forall_eq, not_or]
    at inner apart
  obtain ⟨hk, ha, hx, hb, hc⟩ := inner
  obtain ⟨ck, ca, cx, cb⟩ := apart
  have ne : ∀ {m}, ¬Open m → m ≠ z := fun inner same => inner (same ▸ last)
  constructor
  · refine .inr (within_of_closed
      (fun m => m = k ∨ m = a ∨ m = x ∨ m = b ∨ m = c ∨ Within ways Before x m) ?_ (.inl rfl))
    rintro m (rfl | rfl | rfl | rfl | rfl | within)
    · exact ⟨ne hk, hk, by simp [entry]⟩
    · refine ⟨ne ha, ha, ?_⟩
      rw [start, List.forall_mem_singleton]
      rcases piece.within with rfl | within
      · simp
      · exact .inr (.inr (by simp [within]))
    · exact ⟨ne hx, hx, by simp [stop]⟩
    · exact ⟨ne hb, hb, by simp [close]⟩
    · exact ⟨ne hc, hc, by simp [back]⟩
    · have inner : ¬Open m := fun opened => within.not_open (fewer m opened)
      refine ⟨ne inner, inner, fun t mem => .inr (.inr ?_)⟩
      rcases within_region.step m within t mem with rfl | next
      · simp
      · simp [next]
  · intro env
    have entry' : cut ways c k = [.epsilon a, .epsilon z] := (cut_of_ne (Ne.symm ck)).trans entry
    have start' : cut ways c a = [.epsilon n] := (cut_of_ne (Ne.symm ca)).trans start
    have stop' : cut ways c x = [.epsilon b] := (cut_of_ne (Ne.symm cx)).trans stop
    have close' : cut ways c b = [.epsilon c] := (cut_of_ne (Ne.symm cb)).trans close
    have idle' : cut ways c z = [] := (cut_of_ne (Ne.symm (ne hc))).trans idle
    have round : wordsTo (cut ways c) max env c k = L env := by
      rw [wordsTo_of_fork entry' (Ne.symm ck), wordsTo_of_idle idle' (Ne.symm (ne hc)), add_zero,
        wordsTo_of_epsilon start' (Ne.symm ca), piece.through_cut fresh fresh,
        wordsTo_of_epsilon stop' (Ne.symm cx), wordsTo_of_epsilon close' (Ne.symm cb),
        wordsTo_self, mul_one]
    have past : wordsTo (cut ways c) max env z k = 1 := by
      rw [wordsTo_of_fork entry' (ne hk), wordsTo_self, wordsTo_of_epsilon start' (ne ha),
        piece.through_cut fresh (fewer z last), wordsTo_of_epsilon stop' (ne hx),
        wordsTo_of_epsilon close' (ne hb), wordsTo_of_idle cut_self (ne hc), mul_zero, zero_add]
    rw [wordsTo_loop back idle (ne hc), round, past, mul_one]

/-- A loop that is left behind the piece: its entry `k` leads to the piece, and the end of the
piece leads, by way of `b`, to `c`, and from there back to `k` or to the end `z`. -/
theorem Settled.plus (piece : Settled ways max Before n x L) (fewer : ∀ m, Open m → Before m)
    (entry : ways k = [.epsilon n]) (stop : ways x = [.epsilon b]) (close : ways b = [.epsilon c])
    (back : ways c = [.epsilon k, .epsilon z]) (idle : ways z = [])
    (inner : ∀ m ∈ [k, x, b, c], ¬Open m) (last : Open z) (fresh : Before b)
    (apart : b ∉ [k, x, c]) : Settled ways max Open k z fun env => L env * (L env)∗ := by
  simp only [List.mem_cons, List.not_mem_nil, or_false, forall_eq_or_imp, forall_eq, not_or]
    at inner apart
  obtain ⟨hk, hx, hb, hc⟩ := inner
  obtain ⟨bk, bx, bc⟩ := apart
  have ne : ∀ {m}, ¬Open m → m ≠ z := fun inner same => inner (same ▸ last)
  constructor
  · refine .inr (within_of_closed
      (fun m => m = k ∨ m = x ∨ m = b ∨ m = c ∨ Within ways Before x m) ?_ (.inl rfl))
    rintro m (rfl | rfl | rfl | rfl | within)
    · refine ⟨ne hk, hk, ?_⟩
      rw [entry, List.forall_mem_singleton]
      rcases piece.within with rfl | within
      · simp
      · exact .inr (.inr (by simp [within]))
    · exact ⟨ne hx, hx, by simp [stop]⟩
    · exact ⟨ne hb, hb, by simp [close]⟩
    · exact ⟨ne hc, hc, by simp [back]⟩
    · have inner : ¬Open m := fun opened => within.not_open (fewer m opened)
      refine ⟨ne inner, inner, fun t mem => .inr (.inr ?_)⟩
      rcases within_region.step m within t mem with rfl | next
      · simp
      · simp [next]
  · intro env
    have entry' : cut ways b k = [.epsilon n] := (cut_of_ne (Ne.symm bk)).trans entry
    have stop' : cut ways b x = [.epsilon b] := (cut_of_ne (Ne.symm bx)).trans stop
    have back' : cut ways b c = [.epsilon k, .epsilon z] := (cut_of_ne (Ne.symm bc)).trans back
    have idle' : cut ways b z = [] := (cut_of_ne (Ne.symm (ne hb))).trans idle
    have round : wordsTo (cut ways b) max env b c = L env := by
      rw [wordsTo_of_fork back' (Ne.symm bc), wordsTo_of_idle idle' (Ne.symm (ne hb)), add_zero,
        wordsTo_of_epsilon entry' (Ne.symm bk), piece.through_cut fresh fresh,
        wordsTo_of_epsilon stop' (Ne.symm bx), wordsTo_self, mul_one]
    have past : wordsTo (cut ways b) max env z c = 1 := by
      rw [wordsTo_of_fork back' (ne hc), wordsTo_self, wordsTo_of_epsilon entry' (ne hk),
        piece.through_cut fresh (fewer z last), wordsTo_of_epsilon stop' (ne hx),
        wordsTo_of_idle cut_self (ne hb), mul_zero, zero_add]
    rw [wordsTo_of_epsilon entry (ne hk), piece.through (fewer z last),
      wordsTo_of_epsilon stop (ne hx), wordsTo_of_epsilon close (ne hb),
      wordsTo_loop close idle (ne hb), round, past, mul_one]

end Loops

end

end GrammarNet
