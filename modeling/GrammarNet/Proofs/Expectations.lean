import GrammarNet.Proofs.Encounters
import GrammarNet.Proofs.Refusals

/-!
What is expected in a parse, for chains of any shape.

The symbols expected at a state are put together on a way outwards: from the state to the states at
which the calls of the levels go on, one level after the other, for as long as the follow set that
was taken last has the mark of the end of a rule (`Outward`). A level that is never looked at may
name anything. The question fails at the first level that is looked at and has no call, and it has
an answer else (`exec_outwards_spec`). In a network whose edges lead to states that are there, each
follow set on the way is had (`exists_gives`). A follow set that is kept stays, so the sets are the
same whenever they are taken on the way (`Gives.exec_set`).
-/

namespace GrammarNet

open Lookahead

namespace Network

variable {net : Network} {i : Int}

/-- There is no state with a call in the slot. -/
def CallsNothing (net : Network) (i : Int) : Prop :=
  ∀ s, net.state? i = some s → ∀ t ∈ s.transitions, t.label.follow? = none

theorem callFollow_eq_error_iff {e : LookaheadError} :
    net.callFollow i = .error e ↔ net.CallsNothing i ∧ e = .notACall i := by
  constructor
  · intro failed
    refine ⟨fun s hs t mem => ?_, ?_⟩
    · by_contra call
      obtain ⟨follow, here⟩ := callFollow_of_call hs mem call
      rw [here] at failed
      cases failed
    · unfold callFollow at failed
      split at failed
      · cases failed
      · cases failed
        rfl
  · rintro ⟨nothing, rfl⟩
    cases here : net.callFollow i with
    | error e =>
        unfold callFollow at here
        split at here
        · cases here
        · exact here.symm
    | ok follow =>
        obtain ⟨s, hs, t, mem, label⟩ := edge_of_callFollow here
        rw [nothing s hs t mem] at label
        cases label

end Network

namespace Follow

variable {net : Network} {memo : FollowMemo} {next : Nat → SymbolSet}

/-! ### Follow sets that are had -/

/-- The follow set of each state, with what is kept. -/
def Gives (net : Network) (memo : FollowMemo) (next : Nat → SymbolSet) : Prop :=
  ∀ n, (exec (set net n) memo).1 = .ok (next n)

theorem exec_set_eq_ok_iff {n : Nat} {found : SymbolSet} :
    (exec (set net n) memo).1 = .ok found ↔
      memo.find? n = some found ∨ (memo.find? n = none ∧ net.lookLocally n {} = .ok found) := by
  cases kept : memo.find? n with
  | some kept' => simp [set, kept]
  | none => cases look : net.lookLocally n {} <;> simp [set, kept, look, FollowMemo.publish]

/-- In a network whose edges lead to states that are there, all states have follow sets. -/
theorem exists_gives (anchored : net.Anchored) (memo : FollowMemo) :
    ∃ next, Gives net memo next := by
  have answers : ∀ n, ∃ found, (exec (set net n) memo).1 = .ok found := by
    intro n
    have look : ∃ found, walk (.clear net .empty false) n StackGraph.root = .ok found := by
      refine exists_walk (fun n s hs t mem follow goes => ?_) (StackGraph.returnsLive_root _ _)
      exact (anchored.edges n s hs t mem).2 follow (Option.mem_toList.mp goes)
    cases kept : memo.find? n with
    | some found => exact ⟨found, exec_set_eq_ok_iff.mpr (.inl kept)⟩
    | none =>
        obtain ⟨found, answer⟩ := look
        exact ⟨found, exec_set_eq_ok_iff.mpr (.inr ⟨kept, answer⟩)⟩
  choose next given using answers
  exact ⟨next, given⟩

theorem find?_insert (memo : FollowMemo) (n : Nat) (found : SymbolSet) (m : Nat) :
    FollowMemo.find? ⟨memo.sets.insert n found⟩ m =
      if n = m then some found else memo.find? m := by
  rw [FollowMemo.find?, Std.TreeMap.getElem?_insert]
  by_cases here : n = m <;> simp [here, FollowMemo.find?]

/-- A follow set is kept when it was taken, and no other set changes. -/
theorem Gives.exec_set (gives : Gives net memo next) (n : Nat) :
    ∃ memo', exec (set net n) memo = (.ok (next n), memo') ∧ Gives net memo' next ∧
      ∀ m found, memo'.find? m = some found ↔
        memo.find? m = some found ∨ (m = n ∧ found = next n) := by
  rcases exec_set_eq_ok_iff.mp (gives n) with kept | ⟨absent, look⟩
  · refine ⟨memo, by simp [set, kept], gives, fun m found => (or_iff_left_of_imp ?_).symm⟩
    rintro ⟨rfl, rfl⟩
    exact kept
  · refine ⟨⟨memo.sets.insert n (next n)⟩, by simp [set, absent, look, FollowMemo.publish],
      fun m => ?_, fun m found => ?_⟩
    · rw [exec_set_eq_ok_iff, find?_insert]
      split
      · next here => exact .inl (by rw [here])
      · exact exec_set_eq_ok_iff.mp (gives m)
    · rw [find?_insert]
      split
      · next here => simp [← here, absent, eq_comm]
      · next other => simp [Ne.symm other]

/-! ### The way outwards -/

/-- A state whose follow set was taken, with the levels outside of it. -/
structure Level where
  state : Nat
  outer : ParseChain

/-- The next level is looked at: the follow set has the mark of the end, and the chain goes on. -/
def Level.Consults (next : Nat → SymbolSet) (level : Level) (i : Int) : Prop :=
  Symbol.epsilon ∈ next level.state ∧ 0 ≤ i ∧ level.outer.head? = some i

/-- From one level to the next, where the call of the level goes on. -/
inductive Outward (net : Network) (next : Nat → SymbolSet) : Level → Level → Prop where
  | call {n follow : Nat} {i : Int} {rest : ParseChain} :
      Level.Consults next ⟨n, i :: rest⟩ i → net.callFollow i = .ok follow →
      Outward net next ⟨n, i :: rest⟩ ⟨follow, rest⟩

/-- Some level on the way outwards has the property. -/
def OnWay (net : Network) (next : Nat → SymbolSet) (start : Level) (P : Level → Prop) : Prop :=
  ∃ level, Relation.ReflTransGen (Outward net next) start level ∧ P level

variable {p q : Level} {P : Level → Prop}

theorem onWay_of_last (last : ∀ q, ¬ Outward net next p q) : OnWay net next p P ↔ P p := by
  constructor
  · rintro ⟨level, way, here⟩
    rcases way.cases_head with rfl | ⟨q, step, -⟩
    · exact here
    · exact absurd step (last q)
  · exact fun here => ⟨p, .refl, here⟩

theorem onWay_of_outward (step : Outward net next p q) :
    OnWay net next p P ↔ P p ∨ OnWay net next q P := by
  constructor
  · rintro ⟨level, way, here⟩
    rcases way.cases_head with rfl | ⟨q', step', way⟩
    · exact .inl here
    · refine .inr ⟨level, ?_, here⟩
      obtain ⟨-, goes⟩ := step
      obtain ⟨-, goes'⟩ := step'
      cases goes.symm.trans goes'
      exact way
  · rintro (here | ⟨level, way, here⟩)
    · exact ⟨p, .refl, here⟩
    · exact ⟨level, .head step way, here⟩

/-- A level at which nothing is looked at is the last. -/
theorem not_outward_of_idle (idle : ∀ i, ¬ p.Consults next i) (q : Level) :
    ¬ Outward net next p q := by
  rintro ⟨consults, -⟩
  exact idle _ consults

/-! ### What going outwards comes to -/

/-- The outcome of going outwards from a level, with some symbols collected before: an error when a
level is looked at that has no call, and else the symbols of all levels on the way as well, with the
end of the input when the last of them can end. The follow sets of these levels are kept. -/
structure Outwards (net : Network) (next : Nat → SymbolSet) (start : Level) (collected : SymbolSet)
    (memo : FollowMemo) (outcome : Except LookaheadError SymbolSet × FollowMemo) : Prop where
  error_iff : ∀ e, outcome.1 = .error e ↔ OnWay net next start fun level =>
    ∃ i, level.Consults next i ∧ net.CallsNothing i ∧ e = .notACall i
  mem_iff : ∀ found, outcome.1 = .ok found → ∀ x, x ∈ found ↔ x ∈ collected ∨
    (OnWay net next start fun level => x ∈ next level.state ∧ x ≠ Symbol.epsilon) ∨
    (x = Symbol.endOfInput ∧ OnWay net next start fun level =>
      Symbol.epsilon ∈ next level.state ∧ ∀ i, ¬ level.Consults next i)
  kept_iff : ∀ m found, outcome.2.find? m = some found ↔ memo.find? m = some found ∨
    ((OnWay net next start fun level => level.state = m) ∧ found = next m)

variable {collected : SymbolSet}

/-- A level that is the last adds no follow set to those kept. -/
theorem kept_iff_of_last (last : ∀ q, ¬ Outward net next p q)
    (kept : memo.find? p.state = some (next p.state)) (m : Nat) (found : SymbolSet) :
    memo.find? m = some found ↔ memo.find? m = some found ∨
      ((OnWay net next p fun level => level.state = m) ∧ found = next m) := by
  rw [onWay_of_last last]
  refine (or_iff_left_of_imp ?_).symm
  rintro ⟨rfl, rfl⟩
  exact kept

/-- Where nothing is looked at, the end of the input takes the place of the mark. -/
theorem Outwards.of_idle (idle : ∀ i, ¬ p.Consults next i)
    (own : ∀ x ∈ next p.state, x ≠ Symbol.epsilon → x ∈ collected)
    (kept : memo.find? p.state = some (next p.state)) :
    Outwards net next p collected memo (.ok (close collected (next p.state)), memo) where
  error_iff := by
    intro e
    rw [onWay_of_last (not_outward_of_idle idle)]
    refine iff_of_false (by simp) ?_
    rintro ⟨i, consults, -⟩
    exact idle i consults
  mem_iff := by
    rintro _ ⟨⟩ x
    have last : ∀ q, ¬ Outward net next p q := not_outward_of_idle idle
    rw [onWay_of_last last, onWay_of_last last, mem_close, and_iff_left idle, ← or_assoc,
      or_iff_left_of_imp (b := x ∈ next p.state ∧ _), and_comm]
    exact fun here => own x here.1 here.2
  kept_iff := kept_iff_of_last (not_outward_of_idle idle) kept

/-- A level that is looked at and has no call is an error. -/
theorem Outwards.of_uncalled {n : Nat} {i : Int} {rest : ParseChain} {e : LookaheadError}
    (consults : Level.Consults next ⟨n, i :: rest⟩ i) (failed : net.callFollow i = .error e)
    (kept : memo.find? n = some (next n)) :
    Outwards net next ⟨n, i :: rest⟩ collected memo (.error e, memo) := by
  have last : ∀ q, ¬ Outward net next ⟨n, i :: rest⟩ q := by
    rintro q ⟨-, here⟩
    rw [failed] at here
    cases here
  refine ⟨fun e' => ?_, by rintro _ ⟨⟩, kept_iff_of_last last kept⟩
  rw [onWay_of_last last]
  obtain ⟨nothing, rfl⟩ := Network.callFollow_eq_error_iff.mp failed
  constructor
  · rintro ⟨⟩
    exact ⟨i, consults, nothing, rfl⟩
  · rintro ⟨_, ⟨-, -, ⟨⟩⟩, -, rfl⟩
    rfl

/-- A level that is looked at and has a call adds its symbols. -/
theorem Outwards.of_call {n follow : Nat} {i : Int} {rest : ParseChain} {memo' : FollowMemo}
    {outcome : Except LookaheadError SymbolSet × FollowMemo}
    (consults : Level.Consults next ⟨n, i :: rest⟩ i) (here : net.callFollow i = .ok follow)
    (own : ∀ x ∈ next n, x ≠ Symbol.epsilon → x ∈ collected)
    (unmarked : ¬ Symbol.epsilon ∈ collected) (kept : memo.find? n = some (next n))
    (grown : ∀ m found, memo'.find? m = some found ↔
      memo.find? m = some found ∨ (m = follow ∧ found = next follow))
    (later : Outwards net next ⟨follow, rest⟩ ((collected ∪ next follow).remove Symbol.epsilon)
      memo' outcome) :
    Outwards net next ⟨n, i :: rest⟩ collected memo outcome := by
  have step : Outward net next ⟨n, i :: rest⟩ ⟨follow, rest⟩ := .call consults here
  refine ⟨fun e => ?_, fun found answer x => ?_, fun m found => ?_⟩
  · rw [later.error_iff, onWay_of_outward step]
    refine (or_iff_right ?_).symm
    rintro ⟨_, ⟨-, -, ⟨⟩⟩, nothing, -⟩
    rw [Network.callFollow_eq_error_iff.mpr ⟨nothing, rfl⟩] at here
    cases here
  · rw [later.mem_iff found answer, onWay_of_outward step, onWay_of_outward step,
      SymbolSet.mem_remove, SymbolSet.mem_union]
    constructor
    · rintro (⟨before | mem, symbol⟩ | beyond | ⟨rfl, ends⟩)
      · exact .inl before
      · exact .inr (.inl (.inr ⟨_, .refl, mem, symbol⟩))
      · exact .inr (.inl (.inr beyond))
      · exact .inr (.inr ⟨rfl, .inr ends⟩)
    · rintro (before | (⟨mem, symbol⟩ | beyond) | ⟨rfl, ⟨-, idle⟩ | ends⟩)
      · exact .inl ⟨.inl before, fun same => unmarked (same ▸ before)⟩
      · exact .inl ⟨.inl (own x mem symbol), symbol⟩
      · exact .inr (.inl beyond)
      · exact absurd consults (idle i)
      · exact .inr (.inr ⟨rfl, ends⟩)
  · rw [later.kept_iff, grown, onWay_of_outward step]
    constructor
    · rintro ((before | ⟨rfl, rfl⟩) | ⟨beyond, same⟩)
      · exact .inl before
      · exact .inr ⟨.inr ⟨_, .refl, rfl⟩, rfl⟩
      · exact .inr ⟨.inr beyond, same⟩
    · rintro (before | ⟨rfl | beyond, rfl⟩)
      · exact .inl (.inl before)
      · exact .inl (.inl kept)
      · exact .inr ⟨beyond, rfl⟩

/-- Going outwards, the question looks at the levels of the chain for as long as they can end. -/
theorem exec_outwards_spec (gives : Gives net memo next) (chain : ParseChain) {n : Nat}
    (own : ∀ x ∈ next n, x ≠ Symbol.epsilon → x ∈ collected)
    (unmarked : ¬ Symbol.epsilon ∈ collected) (kept : memo.find? n = some (next n)) :
    Outwards net next ⟨n, chain⟩ collected memo
      (exec (outwards net collected (next n) chain) memo) := by
  induction chain generalizing memo n collected with
  | nil =>
      have idle : ∀ i, ¬ Level.Consults next ⟨n, []⟩ i := fun i consults => by cases consults.2.2
      exact .of_idle idle own kept
  | cons i rest ih =>
      by_cases go : 0 ≤ i ∧ (next n).contains Symbol.epsilon = true
      · have consults : Level.Consults next ⟨n, i :: rest⟩ i :=
          ⟨SymbolSet.contains_iff.mp go.2, go.1, rfl⟩
        cases here : net.callFollow i with
        | error e =>
            have outcome : exec (outwards net collected (next n) (i :: rest)) memo =
                (.error e, memo) := by
              rw [outwards, if_pos go]
              simp [here]
            rw [outcome]
            exact .of_uncalled consults here kept
        | ok follow =>
            obtain ⟨memo', set, gives', grown⟩ := gives.exec_set follow
            rw [exec_outwards_call go here set]
            refine .of_call consults here own unmarked kept grown (ih gives' ?_ ?_ ?_)
            · intro x mem symbol
              exact SymbolSet.mem_remove.mpr ⟨SymbolSet.mem_union.mpr (.inr mem), symbol⟩
            · exact fun mem => (SymbolSet.mem_remove.mp mem).2 rfl
            · exact (grown _ _).mpr (.inr ⟨rfl, rfl⟩)
      · have idle : ∀ j, ¬ Level.Consults next ⟨n, i :: rest⟩ j := by
          rintro _ ⟨ends, nonneg, ⟨⟩⟩
          exact go ⟨nonneg, SymbolSet.contains_iff.mpr ends⟩
        rw [outwards, if_neg go]
        exact .of_idle idle own kept

/-! ### What is expected -/

/-- At the start nothing has been collected but what the start itself adds. -/
theorem Outwards.of_start {memo' : FollowMemo}
    {outcome : Except LookaheadError SymbolSet × FollowMemo}
    (own : ∀ x ∈ collected, x ∈ next p.state ∧ x ≠ Symbol.epsilon)
    (grown : ∀ m found, memo'.find? m = some found ↔
      memo.find? m = some found ∨ (m = p.state ∧ found = next p.state))
    (spec : Outwards net next p collected memo' outcome) : Outwards net next p ∅ memo outcome where
  error_iff := spec.error_iff
  mem_iff := by
    intro found answer x
    rw [spec.mem_iff found answer, or_iff_right_of_imp (a := x ∈ collected),
      or_iff_right SymbolSet.not_mem_empty]
    exact fun before => .inl ⟨p, .refl, own x before⟩
  kept_iff := by
    intro m found
    rw [spec.kept_iff, grown, or_assoc, or_iff_right_of_imp (a := m = p.state ∧ _)]
    rintro ⟨rfl, rfl⟩
    exact ⟨⟨p, .refl, rfl⟩, rfl⟩

/-- Only a level without a call is an error. -/
theorem Outwards.exists_notACall {outcome : Except LookaheadError SymbolSet × FollowMemo}
    {e : LookaheadError} (spec : Outwards net next p collected memo outcome)
    (failed : outcome.1 = .error e) : ∃ i, e = .notACall i := by
  obtain ⟨-, -, i, -, -, same⟩ := (spec.error_iff e).mp failed
  exact ⟨i, same⟩

/-- The symbols of the levels on the way do not have the mark of the end. -/
theorem Outwards.unmarked {outcome : Except LookaheadError SymbolSet × FollowMemo}
    {found : SymbolSet} (spec : Outwards net next p ∅ memo outcome)
    (answer : outcome.1 = .ok found) : ¬ Symbol.epsilon ∈ found := by
  intro marked
  rcases (spec.mem_iff found answer _).mp marked with before | ⟨_, -, -, symbol⟩ | ⟨same, -⟩
  · exact SymbolSet.not_mem_empty before
  · exact symbol rfl
  · exact absurd same (by decide)

/-- A follow set without the mark of the end is what is expected, in any parse. -/
theorem exec_expected_of_unmarked (gives : Gives net memo next) (chain : ParseChain) {n : Nat}
    {s : State} (live : net.get? n = some s) (unmarked : ¬ Symbol.epsilon ∈ next n) :
    (exec (Follow.expected net n chain) memo).1 = .ok (next n) := by
  obtain ⟨memo', set, -⟩ := gives.exec_set n
  rw [exec_expected_eq live set, if_neg fun marked => unmarked (SymbolSet.contains_iff.mp marked)]

/-- What is expected at a state that is there is collected outwards from it. -/
theorem exec_expected_spec (gives : Gives net memo next) (chain : ParseChain) {n : Nat} {s : State}
    (live : net.get? n = some s) :
    Outwards net next ⟨n, chain⟩ ∅ memo (exec (Follow.expected net n chain) memo) := by
  obtain ⟨memo', set, gives', grown⟩ := gives.exec_set n
  have kept : memo'.find? n = some (next n) := (grown n _).mpr (.inr ⟨rfl, rfl⟩)
  rw [exec_expected_eq live set]
  split
  · refine .of_start (fun x mem => SymbolSet.mem_remove.mp mem) grown ?_
    exact exec_outwards_spec gives' chain
      (fun x mem symbol => SymbolSet.mem_remove.mpr ⟨mem, symbol⟩)
      (fun mem => (SymbolSet.mem_remove.mp mem).2 rfl) kept
  · next stay =>
      have unmarked : ¬ Symbol.epsilon ∈ next n := fun mem => stay (SymbolSet.contains_iff.mpr mem)
      have own : close (next n) (next n) = next n := if_neg stay
      have idle : ∀ i, ¬ Level.Consults next ⟨n, chain⟩ i := fun i consults => unmarked consults.1
      have spec : Outwards net next ⟨n, chain⟩ (next n) memo'
          (.ok (close (next n) (next n)), memo') :=
        .of_idle idle (fun x mem _ => mem) kept
      rw [own] at spec
      exact .of_start (fun x mem => ⟨mem, fun same => unmarked (same ▸ mem)⟩) grown spec

/-- There is no answer for a state that is not there, and nothing is looked at. -/
theorem exec_expected_of_absent {n : Int} {chain : ParseChain} (absent : net.state? n = none) :
    exec (Follow.expected net n chain) memo =
      (.error (if n < 0 ∨ net.states.size ≤ n then .noSuchState n else .removedState n), memo) := by
  unfold Follow.expected
  by_cases missing : n < 0 ∨ net.states.size ≤ n
  · rw [if_pos missing, if_pos missing]
    rfl
  · rw [if_neg missing, if_neg missing, absent]
    rfl

/-- In any session, the question what is expected at a state in a parse is refused when there is no
such state, and nothing is kept then. A follow set without the mark of the end is the answer in any
parse. Else the question fails at the first level that is looked at and has no call, and an answer
has the symbols of all levels on the way outwards, with the end of the input in place of the mark.
The follow sets on the way are kept, and no others. -/
theorem expected_outcome {s : Session} (reachable : s.Reachable) (n : Int) (chain : ParseChain) :
    let outcome := exec (Follow.expected s.net n chain) s.memo
    (outcome.1 = .error (.noSuchState n) ↔ n < 0 ∨ s.net.states.size ≤ n) ∧
    (outcome.1 = .error (.removedState n) ↔
      0 ≤ n ∧ n < s.net.states.size ∧ s.net.state? n = none) ∧
    (s.net.state? n = none → outcome.2 = s.memo) ∧
    ∃ next, Gives s.net s.memo next ∧ ∀ state, s.net.state? n = some state →
      let start : Level := ⟨n.toNat, chain⟩
      (¬ Symbol.epsilon ∈ next n.toNat → outcome.1 = .ok (next n.toNat)) ∧
      (∀ e, outcome.1 = .error e ↔ OnWay s.net next start fun level =>
        ∃ i, level.Consults next i ∧ s.net.CallsNothing i ∧ e = .notACall i) ∧
      (∀ found, outcome.1 = .ok found → ¬ Symbol.epsilon ∈ found ∧ ∀ x, x ∈ found ↔
        (OnWay s.net next start fun level => x ∈ next level.state ∧ x ≠ Symbol.epsilon) ∨
        (x = Symbol.endOfInput ∧ OnWay s.net next start fun level =>
          Symbol.epsilon ∈ next level.state ∧ ∀ i, ¬ level.Consults next i)) ∧
      (∀ m found, outcome.2.find? m = some found ↔ s.memo.find? m = some found ∨
        ((OnWay s.net next start fun level => level.state = m) ∧ found = next m)) := by
  intro outcome
  obtain ⟨next, gives⟩ := exists_gives reachable.tied.anchored s.memo
  cases here : s.net.state? n with
  | none =>
      have absent : outcome = _ := exec_expected_of_absent here
      rw [absent]
      refine ⟨?_, ?_, fun _ => rfl, next, gives, by rintro _ ⟨⟩⟩
      · split <;> simp_all
      · split <;> simp_all
        omega
  | some state =>
      obtain ⟨nonneg, live⟩ := Network.state?_eq_some here
      have bound := lt_size_of_get? live
      obtain ⟨k, rfl⟩ := Int.eq_ofNat_of_zero_le nonneg
      rw [Int.toNat_natCast] at live bound
      have spec : Outwards s.net next ⟨k, chain⟩ ∅ s.memo outcome :=
        exec_expected_spec gives chain live
      refine ⟨iff_of_false (fun failed => ?_) (by omega), iff_of_false (fun failed => ?_) (by simp),
        by simp, next, gives, ?_⟩
      · obtain ⟨i, same⟩ := spec.exists_notACall failed
        cases same
      · obtain ⟨i, same⟩ := spec.exists_notACall failed
        cases same
      · rintro _ ⟨⟩
        rw [Int.toNat_natCast]
        refine ⟨exec_expected_of_unmarked gives chain live, spec.error_iff, fun found answer => ?_,
          spec.kept_iff⟩
        refine ⟨spec.unmarked answer, fun x => ?_⟩
        exact (spec.mem_iff found answer x).trans (or_iff_right SymbolSet.not_mem_empty)

/-- A session on two rules. Rule `0` may have a symbol `7`, and rule `1` calls it in state `8`. -/
def calledOption : Session :=
  let start : Session := { net := { grammar := .parser, maxSymbol := 10 } }
  let ops : List Operation :=
    [.newRule, .newRule, .element 0 (.atom 7) rfl, .optional 0 ⟨4, 5⟩, .setRuleBody 0 ⟨6, 7⟩,
      .ruleRef 1 0 0, .setRuleBody 1 ⟨8, 9⟩]
  ops.foldl (fun s op => s.build (.fragments op)) start

set_option maxRecDepth 20000 in
/-- Both rules can end, so that the outermost level is looked at, and its state calls nothing. -/
theorem expected_outcome_calledOption :
    calledOption.Reachable ∧
      (exec (Follow.expected calledOption.net 0 [8, 0]) calledOption.memo).1 =
        .error (.notACall 0) := by
  have reachable : calledOption.Reachable := by
    iterate 7 refine .build _ ?_ (by decide +kernel)
    exact .start .parser 10
  obtain ⟨-, -, -, next, gives, live⟩ := expected_outcome reachable 0 [8, 0]
  obtain ⟨-, error_iff, -, -⟩ := live _ rfl
  have look₀ : calledOption.net.lookLocally 0 {} = .ok (.addSymbol (.single 7) Symbol.epsilon) :=
    Loop.run_eq_of_runFor (n := 40) rfl _
  have look₉ : calledOption.net.lookLocally 9 {} = .ok (.single Symbol.epsilon) :=
    Loop.run_eq_of_runFor (n := 40) rfl _
  have next₀ : next 0 = .addSymbol (.single 7) Symbol.epsilon :=
    Except.ok.inj ((gives 0).symm.trans (exec_set_eq_ok_iff.mpr (.inr ⟨rfl, look₀⟩)))
  have next₉ : next 9 = .single Symbol.epsilon :=
    Except.ok.inj ((gives 9).symm.trans (exec_set_eq_ok_iff.mpr (.inr ⟨rfl, look₉⟩)))
  have inner : Level.Consults next ⟨0, [8, 0]⟩ 8 := ⟨by simp [next₀], by decide, rfl⟩
  have outer : Level.Consults next ⟨9, [0]⟩ 0 := ⟨by simp [next₉], by decide, rfl⟩
  have step : Outward calledOption.net next ⟨0, [8, 0]⟩ ⟨9, [0]⟩ := .call inner rfl
  have failed : calledOption.net.callFollow 0 = .error (.notACall 0) := rfl
  obtain ⟨nothing, -⟩ := Network.callFollow_eq_error_iff.mp failed
  exact ⟨reachable, (error_iff _).mpr ⟨_, .single step, 0, outer, nothing, rfl⟩⟩

end Follow

end GrammarNet
