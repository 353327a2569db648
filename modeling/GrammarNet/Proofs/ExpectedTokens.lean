import GrammarNet.Proofs.Levels
import GrammarNet.Proofs.ParseChains

/-!
The symbols expected in a parse are those of one lookahead from the state with the call stack of the
parse chain (`expected_eq_look`).

The expected symbols are put together from the follow sets of single states, one for each level of
the chain, as long as the levels can end. A lookahead goes through all levels in one walk. Level by
level, both come to the symbols of the level and, when it can end, to those beyond it (`Beyond`).
-/

namespace GrammarNet

open StackGraph

namespace Network

/-- No edge consumes the symbol that stands for the end of a rule. -/
def OmitsEpsilon (net : Network) : Prop :=
  net.All fun _ s => ∀ t ∈ s.transitions,
    t.label.accepts Symbol.firstUser net.maxSymbol Symbol.epsilon = false

instance (net : Network) : Decidable net.OmitsEpsilon :=
  inferInstanceAs (Decidable (net.All _))

theorem OmitsEpsilon.not_consumes {net : Network} (omits : net.OmitsEpsilon) (n : Nat) :
    ¬ net.Consumes n Symbol.epsilon := by
  rintro ⟨s, t, hs, -, mem, accepts⟩
  rw [omits n s hs t mem] at accepts
  cases accepts

end Network

/-- Every set that is kept is the follow set of its state. -/
def FollowMemo.Honest (memo : FollowMemo) (net : Network) : Prop :=
  ∀ n found, memo.find? n = some found → net.lookLocally n {} = .ok found

namespace Lookahead

variable {net : Network} {graph : StackGraph}

/-- The symbol is found when the states are gone through in turn, each as long as the ones before it
can end. Behind the last of them the input ends. -/
def Beyond (net : Network) : List Nat → Int → Prop
  | [], x => x = Symbol.endOfInput
  | follow :: follows, x => Opens net follow x ∨ (RunsOut net follow ∧ Beyond net follows x)

theorem beyond_iff_finds {base : Nat} {follows : List Nat} (spells : graph.Spells base follows)
    {n : Nat} {x : Int} :
    Finds net graph true n base x ↔ Opens net n x ∨ (RunsOut net n ∧ Beyond net follows x) := by
  induction spells generalizing n with
  | root => exact finds_root_iff
  | call entries _ ih =>
      rw [finds_call_iff entries, Int.toNat_natCast, ih]
      rfl

/-- The states to return to are there when the chain resumes at states that are there. -/
theorem returnsLive_of_spells {base : Nat} {follows : List Nat} (spells : graph.Spells base follows)
    (there : ∀ follow ∈ follows, (net.get? follow).isSome) : graph.ReturnsLive net base := by
  induction spells with
  | root => exact returnsLive_root graph net
  | call entries _ ih =>
      apply returnsLive_of_entries
      intro r c mem
      rw [entries, List.mem_singleton] at mem
      cases mem
      refine ⟨?_, ih fun f hf => there f (List.mem_cons_of_mem _ hf)⟩
      have live := there _ List.mem_cons_self
      intro gone
      rw [Network.state?, if_neg (by omega), Int.toNat_natCast] at gone
      rw [gone] at live
      cases live

/-- The symbol can follow a state within its rule, or it is the mark for the end of the rule. -/
def Follows (net : Network) (n : Nat) (found : SymbolSet) : Prop :=
  ∀ x, x ∈ found ↔ Opens net n x ∨ (RunsOut net n ∧ x = Symbol.epsilon)

/-- What a state is followed by within its rule. -/
theorem lookLocally_follows (closed : net.RuleClosed) (unresumed : net.NoEntryResumed) (n : Nat) :
    ∃ found, net.lookLocally n {} = .ok found ∧ Follows net n found := by
  have live : StackGraph.empty.ReturnsLive net (StackGraph.empty.resolveRef none) :=
    returnsLive_root _ _
  have spec : ∃ found, net.look .empty (some n) none { addEndOfInput := false } = .ok found ∧
      ∀ x, x ∈ found ↔ Finds net .empty false n (StackGraph.empty.resolveRef none) x :=
    look_finds closed unresumed live
  obtain ⟨found, answer, mem⟩ := spec
  exact ⟨found, answer, fun x => (mem x).trans finds_local_iff⟩

theorem Opens.ne_epsilon {n : Nat} {x : Int} (omits : net.OmitsEpsilon) (opens : Opens net n x) :
    x ≠ Symbol.epsilon := by
  rintro rfl
  obtain ⟨m, calls, -, consumes⟩ := opens
  exact omits.not_consumes m consumes

/-- The mark for the end of the rule is in a follow set when the end is reached. -/
theorem Follows.epsilon_mem_iff {n : Nat} {found : SymbolSet} (follows : Follows net n found)
    (omits : net.OmitsEpsilon) : Symbol.epsilon ∈ found ↔ RunsOut net n := by
  constructor
  · intro mem
    rcases (follows _).mp mem with opens | ⟨out, -⟩
    · exact absurd rfl (opens.ne_epsilon omits)
    · exact out
  · intro out
    exact (follows _).mpr (.inr ⟨out, rfl⟩)

/-- A follow set without the mark has the symbols of the level. -/
theorem Follows.mem_and_ne_iff {n : Nat} {found : SymbolSet} (follows : Follows net n found)
    (omits : net.OmitsEpsilon) {x : Int} :
    (x ∈ found ∧ x ≠ Symbol.epsilon) ↔ Opens net n x := by
  constructor
  · rintro ⟨mem, apart⟩
    rcases (follows x).mp mem with opens | ⟨-, same⟩
    · exact opens
    · exact absurd same apart
  · intro opens
    exact ⟨(follows x).mpr (.inl opens), opens.ne_epsilon omits⟩

end Lookahead

/-! ### Follow sets that are kept -/

namespace Follow

open Lookahead

variable {net : Network} {memo : FollowMemo}

/-- With nothing kept, nothing wrong is kept. -/
theorem honest_empty (net : Network) : FollowMemo.Honest {} net := by
  intro n found kept
  simp [FollowMemo.find?] at kept

/-- A follow set is the one that a lookahead finds, whether it was kept or is kept from now on. -/
theorem exec_set {n : Nat} {found : SymbolSet} (honest : memo.Honest net)
    (look : net.lookLocally n {} = .ok found) :
    ∃ memo', exec (set net n) memo = (.ok found, memo') ∧ memo'.Honest net := by
  cases kept : memo.find? n with
  | some found' =>
      obtain rfl : found' = found := by
        have := (honest n found' kept).symm.trans look
        simpa using this
      exact ⟨memo, by simp [set, kept], honest⟩
  | none =>
      refine ⟨⟨memo.sets.insert n found⟩, by simp [set, kept, look, FollowMemo.publish], ?_⟩
      intro m found' kept'
      simp only [FollowMemo.find?, Std.TreeMap.getElem?_insert] at kept'
      split at kept'
      · next same =>
          obtain rfl : n = m := by simpa using same
          cases kept'
          exact look
      · exact honest m found' kept'

theorem mem_close {expected following : SymbolSet} {x : Int} :
    x ∈ close expected following ↔
      x ∈ expected ∨ (Symbol.epsilon ∈ following ∧ x = Symbol.endOfInput) := by
  unfold close
  split
  · next ends =>
      rw [SymbolSet.contains_iff] at ends
      rw [SymbolSet.mem_addSymbol]
      exact ⟨fun h => h.symm.imp_right fun same => ⟨ends, same⟩, fun h => h.symm.imp_left And.right⟩
  · next ends =>
      rw [SymbolSet.contains_iff] at ends
      exact ⟨Or.inl, fun h => h.resolve_right fun mark => ends mark.1⟩

theorem exec_outwards_call {i : Int} {follow : Nat} {chain : ParseChain} {memo' : FollowMemo}
    {expected following next : SymbolSet}
    (go : 0 ≤ i ∧ following.contains Symbol.epsilon = true) (here : net.callFollow i = .ok follow)
    (set : exec (set net follow) memo = (.ok next, memo')) :
    exec (outwards net expected following (i :: chain)) memo =
      exec (outwards net ((expected ∪ next).remove Symbol.epsilon) next chain) memo' := by
  rw [outwards, if_pos go]
  simp [here, set]

theorem exec_expected_eq {chain : ParseChain} {n : Nat} {s : State} {following : SymbolSet}
    {memo' : FollowMemo} (live : net.get? n = some s)
    (set : exec (set net n) memo = (.ok following, memo')) :
    exec (Follow.expected net n chain) memo =
      if following.contains Symbol.epsilon then
        exec (outwards net (following.remove Symbol.epsilon) following chain) memo'
      else (.ok following, memo') := by
  have there : n < net.states.size := lt_size_of_get? live
  have state : net.state? n = some s := by
    rw [Network.state?, if_neg (by omega), Int.toNat_natCast, live]
  unfold Follow.expected
  rw [if_neg (by omega), state]
  simp only [exec_bind, Int.toNat_natCast, set]
  split <;> rfl

/-- Going outwards adds the symbols beyond the level reached, when it can end. -/
theorem exec_outwards {chain : ParseChain} {follows : List Nat} (closed : net.RuleClosed)
    (unresumed : net.NoEntryResumed) (omits : net.OmitsEpsilon)
    (resumes : chain.Resumes net follows) {n : Nat} {expected following : SymbolSet}
    (honest : memo.Honest net) (after : Follows net n following)
    (unmarked : ¬ Symbol.epsilon ∈ expected) :
    ∃ found, (exec (outwards net expected following chain) memo).1 = .ok found ∧
      ∀ x, x ∈ found ↔ x ∈ expected ∨ (RunsOut net n ∧ Beyond net follows x) := by
  have ends := after.epsilon_mem_iff omits
  induction resumes generalizing memo n expected following with
  | none => exact ⟨close expected following, rfl, fun x => by rw [mem_close, ends, Beyond]⟩
  | outermost =>
      refine ⟨close expected following, ?_, fun x => by rw [mem_close, ends, Beyond]⟩
      rw [outwards, if_neg (by omega), exec_pure]
  | @call i follow chain follows here _ _ ih =>
      by_cases out : RunsOut net n
      · obtain ⟨next, look, after'⟩ := lookLocally_follows closed unresumed follow
        obtain ⟨memo', set, honest'⟩ := exec_set honest look
        have opens : ∀ x, x ∈ (expected ∪ next).remove Symbol.epsilon ↔
            x ∈ expected ∨ Opens net follow x := by
          intro x
          rw [SymbolSet.mem_remove, SymbolSet.mem_union, or_and_right,
            after'.mem_and_ne_iff omits]
          exact or_congr_left ⟨And.left, fun mem => ⟨mem, fun same => unmarked (same ▸ mem)⟩⟩
        have unmarked' : ¬ Symbol.epsilon ∈ (expected ∪ next).remove Symbol.epsilon := by
          rw [SymbolSet.mem_remove]
          exact fun mem => mem.2 rfl
        obtain ⟨found, answer, mem⟩ := ih honest' after' unmarked' (after'.epsilon_mem_iff omits)
        refine ⟨found, ?_, fun x => ?_⟩
        · have go : 0 ≤ i ∧ following.contains Symbol.epsilon = true :=
            ⟨(closed.callFollow_live here).1, SymbolSet.contains_iff.mpr (ends.mpr out)⟩
          rw [exec_outwards_call go here set, answer]
        · rw [mem, opens, Beyond, or_assoc]
          exact or_congr_right ⟨fun beyond => ⟨out, beyond⟩, And.right⟩
      · refine ⟨expected, ?_, fun x => ⟨Or.inl, fun h => h.resolve_right fun more => out more.1⟩⟩
        have stay : ¬ following.contains Symbol.epsilon = true :=
          fun marked => out (ends.mp (SymbolSet.contains_iff.mp marked))
        rw [outwards, if_neg (fun go => stay go.2), exec_pure, close, if_neg stay]

/-- The symbols expected are those of the level of the state and those beyond it. -/
theorem exec_expected {chain : ParseChain} {follows : List Nat} (closed : net.RuleClosed)
    (unresumed : net.NoEntryResumed) (omits : net.OmitsEpsilon)
    (resumes : chain.Resumes net follows) (honest : memo.Honest net) {n : Nat} {s : State}
    (live : net.get? n = some s) :
    ∃ found, (exec (Follow.expected net n chain) memo).1 = .ok found ∧
      ∀ x, x ∈ found ↔ Opens net n x ∨ (RunsOut net n ∧ Beyond net follows x) := by
  obtain ⟨following, look, after⟩ := lookLocally_follows closed unresumed n
  obtain ⟨memo', set, honest'⟩ := exec_set honest look
  have opens : ∀ x, x ∈ following.remove Symbol.epsilon ↔ Opens net n x := by
    intro x
    rw [SymbolSet.mem_remove, after.mem_and_ne_iff omits]
  by_cases out : RunsOut net n
  · have marked : following.contains Symbol.epsilon = true :=
      SymbolSet.contains_iff.mpr ((after.epsilon_mem_iff omits).mpr out)
    have unmarked : ¬ Symbol.epsilon ∈ following.remove Symbol.epsilon := by
      rw [SymbolSet.mem_remove]
      exact fun mem => mem.2 rfl
    obtain ⟨found, answer, mem⟩ :=
      exec_outwards closed unresumed omits resumes honest' after unmarked
    refine ⟨found, ?_, fun x => by rw [mem, opens]⟩
    rw [exec_expected_eq live set, if_pos marked, answer]
  · have unmarked : ¬ Symbol.epsilon ∈ following := fun h => out ((after.epsilon_mem_iff omits).mp h)
    refine ⟨following, ?_, fun x => ?_⟩
    · rw [exec_expected_eq live set,
        if_neg (fun marked => unmarked (SymbolSet.contains_iff.mp marked))]
    · rw [after x]
      exact or_congr_right ⟨fun h => absurd h.1 out, fun h => absurd h.1 out⟩

/-- The symbols expected at a state in a parse are found by a lookahead from the state with the call
stack of the parse chain. -/
theorem expected_eq_look {chain : ParseChain} {graph : StackGraph} {n : Nat} {s : State}
    (closed : net.RuleClosed) (unresumed : net.NoEntryResumed) (omits : net.OmitsEpsilon)
    (small : (net.states.size : Int) ≤ StackEntry.endMark) (honest : memo.Honest net)
    (live : net.get? n = some s) (valid : chain.Valid net) :
    ∃ node graph' found, graph.ofChain net chain = .ok (node, graph') ∧
      net.look graph' (some n) (some node) { addEndOfInput := true } = .ok found ∧
      (exec (Follow.expected net n chain) memo).1 = .ok found := by
  obtain ⟨follows, resumes⟩ := valid.resumes
  obtain ⟨node, graph', made, le, spells⟩ := ofChain_spells (g := graph) closed small resumes
  have resolved : graph'.resolveRef (some node) = node := if_pos le
  have returns : graph'.ReturnsLive net (graph'.resolveRef (some node)) := by
    rw [resolved]
    exact returnsLive_of_spells spells (resumes.live closed)
  have spec : ∃ found, net.look graph' (some n) (some node) { addEndOfInput := true } = .ok found ∧
      ∀ x, x ∈ found ↔ Finds net graph' true n (graph'.resolveRef (some node)) x :=
    look_finds closed unresumed returns
  obtain ⟨found, answer, mem⟩ := spec
  obtain ⟨found', answer', mem'⟩ := exec_expected closed unresumed omits resumes honest live
  refine ⟨node, graph', found, made, answer, ?_⟩
  have same : found = found' := by
    ext x
    rw [mem x, mem' x, resolved, beyond_iff_finds spells]
  rw [same, answer']

/-- The same inside of a sum that another rule calls, with nothing kept before. -/
theorem expected_eq_look_leftSum :
    Network.leftSum.RuleClosed ∧ Network.leftSum.NoEntryResumed ∧ Network.leftSum.OmitsEpsilon ∧
      (Network.leftSum.states.size : Int) ≤ StackEntry.endMark ∧
      FollowMemo.Honest {} Network.leftSum ∧ ParseChain.Valid Network.leftSum [7, -1] ∧
      ∃ node graph' found,
        StackGraph.empty.ofChain Network.leftSum [7, -1] = .ok (node, graph') ∧
        Network.leftSum.look graph' (some 0) (some node) { addEndOfInput := true } = .ok found ∧
        (exec (Follow.expected Network.leftSum (0 : Nat) [7, -1]) {}).1 = .ok found := by
  have omits : Network.leftSum.OmitsEpsilon := by decide
  have small : (Network.leftSum.states.size : Int) ≤ StackEntry.endMark := by decide
  have valid : ParseChain.Valid Network.leftSum [7, -1] :=
    (ParseChain.valid_outermost _).call (by simp) rfl (.head _) (by decide)
  exact ⟨Network.leftSum_ruleClosed, Network.leftSum_noEntryResumed, omits, small, honest_empty _,
    valid, expected_eq_look Network.leftSum_ruleClosed Network.leftSum_noEntryResumed omits small
      (honest_empty _) rfl valid⟩

/-- Where a call goes on at an entry of a mode, the lookahead may miss an expected symbol. -/
theorem expected_ne_look_behind_resumed_entry :
    Network.resumedEntry.RuleClosed ∧ Network.resumedEntry.OmitsEpsilon ∧
      ParseChain.Valid Network.resumedEntry [7, -1] ∧
      (∃ node graph', StackGraph.empty.ofChain Network.resumedEntry [7, -1] = .ok (node, graph') ∧
        Network.resumedEntry.look graph' (some 0) (some node) { addEndOfInput := true } = .ok ∅) ∧
      (exec (Follow.expected Network.resumedEntry 0 [7, -1]) {}).1 =
        .ok ((SymbolSet.single 7).addSymbol Symbol.endOfInput) := by
  have look₀ : Network.resumedEntry.lookLocally 0 {} = .ok (.addSymbol ∅ Symbol.epsilon) :=
    Loop.run_eq_of_runFor (n := 40) rfl _
  have look₈ : Network.resumedEntry.lookLocally 8 {} =
      .ok (.addSymbol (.single 7) Symbol.epsilon) :=
    Loop.run_eq_of_runFor (n := 40) rfl _
  refine ⟨Network.resumedEntry_ruleClosed, by decide, ?_, ⟨_, _, rfl, ?_⟩, ?_⟩
  · exact (ParseChain.valid_outermost _).call (by simp) rfl (.head _) (by decide)
  · exact Loop.run_eq_of_runFor (n := 40) rfl _
  · obtain ⟨memo₁, set₀, honest₁⟩ := exec_set (honest_empty _) look₀
    obtain ⟨memo₂, set₈, -⟩ := exec_set honest₁ look₈
    have call₇ : Network.resumedEntry.callFollow 7 = .ok 8 := rfl
    change (exec (Follow.expected Network.resumedEntry (0 : Nat) [7, -1]) {}).1 = _
    rw [exec_expected_eq rfl set₀, if_pos (by decide), exec_outwards_call (by decide) call₇ set₈,
      outwards, if_neg (by decide), exec_pure]
    rfl

end Follow

end GrammarNet
