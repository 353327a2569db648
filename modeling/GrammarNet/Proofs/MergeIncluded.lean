import GrammarNet.Proofs.ContextLaws

/-!
A merge that adds nothing gives back the node that is there.

A merge recognises one of its two nodes by the entries alone, and tells callers apart by number. So
it finds the larger of two nodes only when every merge of callers below gives back a caller of that
node, and when no two callers of it are equal. Both hold for nodes that a table keeps, because kept
nodes are known by their stacks; they need not hold for others.

* `weave_eq_left`, `shareCallers_eq`: neither step changes entries that cover the others.
* `Picks`: what a relation of pairs has to satisfy so that all merges below give back a node that is
  there; `Picks.merge` is the induction over the merge.
* `merge_eq_included`: merging a node with a kept node whose stacks include its own gives back the
  kept node, and makes no other.
-/

namespace GrammarNet

open StackGraph StackEntry

namespace StackEntry

variable {R : Nat → Nat → Prop} {e f x y : StackEntry} {xs ys : List StackEntry}

theorem Matches.refl (e : StackEntry) : Matches Eq e e := by
  cases e with
  | ended => exact .ended
  | call r c => exact .call rfl

/-- Of entries with the same return state, none comes before the other. -/
theorem Matches.not_before (h : Matches R e f) : e.before f = false :=
  (h.before_eq (Matches.refl f)).trans (before_irrefl f)

theorem Matches.not_after (h : Matches R e f) : f.before e = false :=
  h.symm.not_before

/-- Each entry of the second list has one in the first that matches it. -/
def Covers (R : Nat → Nat → Prop) (xs ys : List StackEntry) : Prop :=
  ∀ f ∈ ys, ∃ e ∈ xs, Matches R e f

/-- An entry that comes before all of the second list covers none of it. -/
theorem Covers.tail (covers : Covers R (x :: xs) ys) (ahead : ∀ f ∈ ys, x.before f = true) :
    Covers R xs ys := by
  intro f mem
  obtain ⟨e, mem', h⟩ := covers f mem
  rcases List.mem_cons.mp mem' with rfl | mem'
  · have level := h.not_before
    rw [ahead f mem] at level
    cases level
  · exact ⟨e, mem', h⟩

/-- When the first head does not come before the second, it covers it. -/
theorem Covers.heads (covers : Covers R (x :: xs) (y :: ys))
    (ascL : (x :: xs).Pairwise fun a b => a.before b = true)
    (ascR : (y :: ys).Pairwise fun a b => a.before b = true) (notLess : ¬ x.before y = true) :
    Matches R x y ∧ Covers R xs ys := by
  obtain ⟨aheadL, -⟩ := List.pairwise_cons.mp ascL
  obtain ⟨aheadR, -⟩ := List.pairwise_cons.mp ascR
  obtain ⟨e, mem, h⟩ := covers y List.mem_cons_self
  have head : Matches R x y := by
    rcases List.mem_cons.mp mem with rfl | mem
    · exact h
    · refine absurd ?_ notLess
      rw [← (Matches.refl x).before_eq h]
      exact aheadL e mem
  have rest : Covers R (x :: xs) ys := fun f mem => covers f (List.mem_cons_of_mem y mem)
  refine ⟨head, rest.tail fun f mem => ?_⟩
  rw [head.before_eq (Matches.refl f)]
  exact aheadR f mem

end StackEntry

namespace StackGraph

variable {g : StackGraph} {table : CanonicalTable} {merged? : Nat → Nat → Option Nat}
  {xs ys : List StackEntry} {a b : Nat}

/-! ### Weaving changes nothing -/

/-- Weaving in entries that are covered changes nothing, when the results for the callers are those
of the first list. -/
theorem weave_eq_left (ascL : xs.Pairwise fun a b => a.before b = true)
    (ascR : ys.Pairwise fun a b => a.before b = true)
    (covers : Covers (fun c d => c = d ∨ merged? c d = some c) xs ys) :
    weave merged? xs ys = .ok xs := by
  fun_induction weave merged? xs ys with
  | case1 ys =>
      cases ys with
      | nil => rfl
      | cons f ys =>
          obtain ⟨e, mem, -⟩ := covers f List.mem_cons_self
          cases mem
  | case2 x xs => rfl
  | case3 x xs y ys less ih =>
      have ahead : ∀ f ∈ y :: ys, x.before f = true :=
        List.forall_mem_cons.mpr
          ⟨less, fun f mem => before_trans less ((List.pairwise_cons.mp ascR).1 f mem)⟩
      rw [ih (List.pairwise_cons.mp ascL).2 ascR (covers.tail ahead)]
      rfl
  | case4 x xs y ys notLess less ih =>
      obtain ⟨head, -⟩ := covers.heads ascL ascR notLess
      rw [head.not_after] at less
      cases less
  | case5 xs ys r s c notLess notLess' ih =>
      obtain ⟨-, rest⟩ := covers.heads ascL ascR notLess
      rw [ih (List.pairwise_cons.mp ascL).2 (List.pairwise_cons.mp ascR).2 rest]
      rfl
  | case6 xs ys r c s d apart m found notLess notLess' ih =>
      obtain ⟨head, rest⟩ := covers.heads ascL ascR notLess
      rw [ih (List.pairwise_cons.mp ascL).2 (List.pairwise_cons.mp ascR).2 rest]
      cases head with
      | call h =>
          have first := h.resolve_left apart
          rw [found] at first
          cases first
          rfl
  | case7 xs ys r c s d apart none notLess notLess' =>
      obtain ⟨head, -⟩ := covers.heads ascL ascR notLess
      cases head with
      | call h =>
          have first := h.resolve_left apart
          rw [none] at first
          cases first
  | case8 x xs y ys notLess notLess' mixed ih =>
      obtain ⟨-, rest⟩ := covers.heads ascL ascR notLess
      obtain ⟨rfl, -⟩ := both_ended_of_not_before notLess notLess' mixed
      rw [ih (List.pairwise_cons.mp ascL).2 (List.pairwise_cons.mp ascR).2 rest]
      rfl

/-- The order in which two lists are woven does not matter. -/
theorem weave_comm (merged? : Nat → Nat → Option Nat) (xs ys : List StackEntry) :
    weave merged? xs ys = weave (fun d c => merged? c d) ys xs := by
  fun_induction weave merged? xs ys with
  | case1 ys => cases ys <;> simp [weave]
  | case2 x xs => simp [weave]
  | case3 x xs y ys less ih =>
      rw [ih, weave.eq_def _ (y :: ys) (x :: xs)]
      simp [less, before_asymm less]
  | case4 x xs y ys notLess less ih =>
      rw [ih, weave.eq_def _ (y :: ys) (x :: xs)]
      simp [less]
  | case5 xs ys r s c notLess notLess' ih =>
      obtain rfl := return_eq_of_not_before notLess notLess'
      rw [ih, weave.eq_def _ (StackEntry.call r c :: ys) (StackEntry.call r c :: xs)]
      simp [notLess]
  | case6 xs ys r c s d apart m found notLess notLess' ih =>
      obtain rfl := return_eq_of_not_before notLess notLess'
      rw [ih, weave.eq_def _ (StackEntry.call r d :: ys) (StackEntry.call r c :: xs)]
      simp [notLess, notLess', Ne.symm apart, found]
  | case7 xs ys r c s d apart none notLess notLess' =>
      rw [weave.eq_def _ (StackEntry.call s d :: ys) (StackEntry.call r c :: xs)]
      simp [notLess, notLess', Ne.symm apart, none]
  | case8 x xs y ys notLess notLess' mixed ih =>
      obtain ⟨rfl, rfl⟩ := both_ended_of_not_before notLess notLess' mixed
      rw [ih, weave.eq_def _ (StackEntry.ended :: ys) (StackEntry.ended :: xs)]
      rfl

/-- Callers that are told apart are shared with none but themselves. -/
theorem shareCallers_eq {same : Nat → Nat → Bool} {P : Nat → Prop} {earlier : List Nat}
    (apart : ∀ c d, P c → P d → same d c = true → d = c) (nodes : ∀ c ∈ earlier, P c)
    (callers : ∀ r c, .call r c ∈ xs → P c) : shareCallers same earlier xs = xs := by
  induction xs generalizing earlier with
  | nil => rfl
  | cons e es ih =>
      have rest : ∀ r c, .call r c ∈ es → P c := fun r c mem =>
        callers r c (List.mem_cons_of_mem e mem)
      cases e with
      | ended => rw [shareCallers, ih nodes rest]
      | call r c =>
          have here := callers r c List.mem_cons_self
          rw [shareCallers]
          split
          · next d found =>
              have mem := nodes d (List.mem_of_find?_eq_some found)
              rw [ih nodes rest, apart c d here mem (by simpa using List.find?_some found)]
          · rw [ih (fun d mem => ?_) rest]
            rcases List.mem_append.mp mem with mem | mem
            · exact nodes d mem
            · exact List.mem_singleton.mp mem ▸ here

/-! ### Callers below equal return states -/

/-- When neither head comes before the other, entries that return to one state are both heads or
both behind them. -/
theorem heads_or_tails {x y : StackEntry} {r : Int} {c d : Nat}
    (ascL : (x :: xs).Pairwise fun a b => a.before b = true)
    (ascR : (y :: ys).Pairwise fun a b => a.before b = true) (notLess : ¬ x.before y = true)
    (notLess' : ¬ y.before x = true) (memL : .call r c ∈ x :: xs) (memR : .call r d ∈ y :: ys) :
    (x = .call r c ∧ y = .call r d) ∨ (.call r c ∈ xs ∧ .call r d ∈ ys) := by
  rcases List.mem_cons.mp memL with rfl | memL
  · rcases List.mem_cons.mp memR with rfl | memR
    · exact .inl ⟨rfl, rfl⟩
    · refine absurd ?_ notLess'
      rw [before_call_right c d]
      exact (List.pairwise_cons.mp ascR).1 _ memR
  · rcases List.mem_cons.mp memR with rfl | memR
    · refine absurd ?_ notLess
      rw [before_call_right d c]
      exact (List.pairwise_cons.mp ascL).1 _ memL
    · exact .inr ⟨memL, memR⟩

/-- All pairs of different callers below equal return states are listed. -/
theorem mem_sharedReturns_of_mem {r : Int} {c d : Nat}
    (ascL : xs.Pairwise fun a b => a.before b = true)
    (ascR : ys.Pairwise fun a b => a.before b = true) (memL : .call r c ∈ xs)
    (memR : .call r d ∈ ys) (apart : c ≠ d) : (c, d) ∈ sharedReturns xs ys := by
  have level : Matches (fun _ _ => True) (.call r c) (.call r d) := .call trivial
  fun_induction sharedReturns xs ys with
  | case1 ys => cases memL
  | case2 x xs => cases memR
  | case3 x xs y ys less ih =>
      rcases List.mem_cons.mp memL with rfl | memL
      · have ahead : (StackEntry.call r c).before (.call r d) = true := by
          rcases List.mem_cons.mp memR with rfl | memR
          · exact less
          · exact before_trans less ((List.pairwise_cons.mp ascR).1 _ memR)
        rw [level.not_before] at ahead
        cases ahead
      · exact ih (List.pairwise_cons.mp ascL).2 ascR memL memR
  | case4 x xs y ys notLess less ih =>
      rcases List.mem_cons.mp memR with rfl | memR
      · have ahead : (StackEntry.call r d).before (.call r c) = true := by
          rcases List.mem_cons.mp memL with rfl | memL
          · exact less
          · exact before_trans less ((List.pairwise_cons.mp ascL).1 _ memL)
        rw [level.not_after] at ahead
        cases ahead
      · exact ih ascL (List.pairwise_cons.mp ascR).2 memL memR
  | case5 xs ys r' c' s' notLess notLess' ih =>
      rcases heads_or_tails ascL ascR notLess notLess' memL memR with ⟨h, h'⟩ | ⟨memL, memR⟩
      · cases h
        cases h'
        exact absurd rfl apart
      · exact ih (List.pairwise_cons.mp ascL).2 (List.pairwise_cons.mp ascR).2 memL memR
  | case6 xs ys r' c' s' d' _ notLess notLess' ih =>
      rcases heads_or_tails ascL ascR notLess notLess' memL memR with ⟨h, h'⟩ | ⟨memL, memR⟩
      · cases h
        cases h'
        exact List.mem_cons_self
      · exact List.mem_cons_of_mem _
          (ih (List.pairwise_cons.mp ascL).2 (List.pairwise_cons.mp ascR).2 memL memR)
  | case7 x xs y ys notLess notLess' mixed ih =>
      rcases heads_or_tails ascL ascR notLess notLess' memL memR with ⟨h, h'⟩ | ⟨memL, memR⟩
      · exact (mixed _ _ _ _ h h').elim
      · exact ih (List.pairwise_cons.mp ascL).2 (List.pairwise_cons.mp ascR).2 memL memR

/-! ### Merges that give back what is there -/

/-- Merging related nodes gives back the one that is picked, as far as one node goes: the pairs of
callers below are related, and with the picked callers as their results the two nodes are not
combined to a new one. -/
structure Picks (g : StackGraph) (R : Nat → Nat → Prop) (pick : Nat → Nat → Nat) : Prop where
  below : ∀ {x y : Nat} {r : Int} {c d : Nat}, R x y → .call r c ∈ g.entries x →
    .call r d ∈ g.entries y → R c d
  /-- A memo answers for both orders. -/
  swap : ∀ {x y : Nat}, R x y → R y x → pick x y = pick y x
  same : ∀ {x y : Nat}, R x y → g.same x y = true → pick x y = x
  combine : ∀ {x y : Nat} {merged? : Nat → Nat → Option Nat}, R x y →
    (∀ r c d, .call r c ∈ g.entries x → .call r d ∈ g.entries y →
      c = d ∨ merged? c d = some (pick c d)) →
    g.combine merged? x y = .ok (pick x y, g)

/-- What holds while related nodes are merged: no node was made, and all results are picked. -/
structure Merging.Picked (g : StackGraph) (R : Nat → Nat → Prop) (pick : Nat → Nat → Nat)
    (s : Merging) : Prop where
  graph : s.graph = g
  memo : ∀ x y n, s.memo.results[[x, y]]? = some n → R x y ∧ n = pick x y
  work : ∀ x y, (x, y) ∈ s.work → R x y

variable {R : Nat → Nat → Prop} {pick : Nat → Nat → Nat}

theorem Merging.Picked.find? {s : Merging} {x y n : Nat} (picked : s.Picked g R pick)
    (picks : g.Picks R pick) (related : R x y) (found : s.memo.find? x y = some n) :
    n = pick x y := by
  unfold MergeMemo.find? at found
  split at found
  · next here =>
      cases found
      exact (picked.memo x y n here).2
  · obtain ⟨related', rfl⟩ := picked.memo y x n found
    exact picks.swap related' related

/-- The picked node may be recorded for the pair in front. -/
theorem Merging.Picked.record {s : Merging} {x y : Nat} {rest : List (Nat × Nat)}
    (picked : s.Picked g R pick) (front : s.work = (x, y) :: rest) :
    Merging.Picked g R pick { graph := g, memo := s.memo.record x y (pick x y), work := rest } where
  graph := rfl
  memo c d m found := by
    rw [MergeMemo.record, Std.TreeMap.getElem?_insertIfNew] at found
    split at found
    · next here =>
        cases found
        obtain ⟨rfl, rfl⟩ : x = c ∧ y = d := by simpa using here.1
        exact ⟨picked.work x y (front ▸ List.mem_cons_self), rfl⟩
    · exact picked.memo c d m found
  work c d mem := picked.work c d (front ▸ List.mem_cons_of_mem _ mem)

/-- When no pair of callers is missing, the callers are one node or have the picked result. -/
theorem Merging.Picked.ready {s : Merging} {x y : Nat} (picked : s.Picked g R pick)
    (picks : g.Picks R pick) (related : R x y) (ready : s.missing x y = []) {r : Int} {c d : Nat}
    (memL : .call r c ∈ g.entries x) (memR : .call r d ∈ g.entries y) :
    c = d ∨ s.memo.find? c d = some (pick c d) := by
  refine or_iff_not_imp_left.mpr fun apart => ?_
  have shared : (c, d) ∈ sharedReturns (s.graph.entries x) (s.graph.entries y) :=
    mem_sharedReturns_of_mem (s.graph.entries_pairwise x) (s.graph.entries_pairwise y)
      (picked.graph ▸ memL) (picked.graph ▸ memR) apart
  obtain ⟨n, found⟩ := Merging.exists_result ready shared
  rw [found, picked.find? picks (picks.below related memL memR) found]

/-- A round of a merge picks a node that is there. -/
theorem Merging.Picked.next {s t : Merging} (picked : s.Picked g R pick)
    (picks : g.Picks R pick) (round : mergeRound s = .next t) : t.Picked g R pick := by
  cases Merging.took_of_round round with
  | known front _ =>
      exact
        { picked with
          work := fun c d mem => picked.work c d (front ▸ List.mem_cons_of_mem _ mem) }
  | @same x y rest front _ same =>
      have related := picked.work x y (front ▸ List.mem_cons_self)
      have here := picks.same related (picked.graph ▸ same)
      have next := picked.record front
      rw [here] at next
      rwa [picked.graph]
  | @combined x y n h rest front _ ready result =>
      have related := picked.work x y (front ▸ List.mem_cons_self)
      have here := picks.combine related fun r c d memL memR =>
        picked.ready picks related ready memL memR
      rw [picked.graph, here] at result
      cases result
      exact picked.record front
  | @planned x y rest front _ _ =>
      have related := picked.work x y (front ▸ List.mem_cons_self)
      refine { picked with work := fun c d mem => ?_ }
      rcases List.mem_append.mp mem with mem | mem
      · obtain ⟨r, memL, memR⟩ :=
          mem_sharedReturns (List.mem_of_mem_filter (List.mem_reverse.mp mem))
        exact picks.below related (picked.graph ▸ memL) (picked.graph ▸ memR)
      · exact picked.work c d mem

/-- Merging related nodes without a memo gives back the one that is picked, and makes no node. -/
theorem Picks.merge {a b : Option Nat} (picks : g.Picks R pick) (inRange : g.InRange)
    (related : R (g.resolveRef a) (g.resolveRef b)) :
    ∃ memo, g.merge {} a b = .ok ⟨pick (g.resolveRef a) (g.resolveRef b), g, memo⟩ := by
  have ha := g.resolveRef_le a
  have hb := g.resolveRef_le b
  unfold StackGraph.merge
  simp only
  generalize g.resolveRef a = a at *
  generalize g.resolveRef b = b at *
  have new : (({} : MergeMemo).find? a b) = none := by simp [MergeMemo.find?]
  split
  · next same => exact ⟨{}, by rw [picks.same related same]⟩
  · rw [new]
    have keeps : ∀ s t, s.Sound True g a b ∧ s.Picked g R pick → mergeRound s = .next t →
        t.Sound True g a b ∧ t.Picked g R pick :=
      fun s t inv round => ⟨inv.1.next round, inv.2.next picks round⟩
    have last : ∀ s r, s.Sound True g a b ∧ s.Picked g R pick → mergeRound s = .done r →
        ∃ memo, r = .ok (g, memo) ∧ memo.find? a b = some (pick a b) := by
      intro s r inv round
      obtain ⟨rfl, found⟩ := inv.1.done round
      obtain ⟨n, found⟩ := Option.isSome_iff_exists.mp found
      refine ⟨s.memo, by rw [inv.2.graph], ?_⟩
      rw [found, inv.2.find? picks related found]
    obtain ⟨memo, run, found⟩ := Loop.run_invariant keeps last (merge_ends g {} a b)
      ⟨Merging.sound_start inRange (MergeMemo.sound_empty True g) ha hb,
       { graph := rfl
         memo := fun x y n found => by simp at found
         work := fun x y mem => by
          cases List.mem_singleton.mp mem
          exact related }⟩
    rw [run]
    simp only [found]
    exact ⟨memo, rfl⟩

/-! ### Kept nodes -/

/-- All stacks of the second node are stacks of the first. -/
def Includes (g : StackGraph) (a b : Nat) : Prop :=
  ∀ stack, g.HasStack b stack → g.HasStack a stack

theorem Includes.below {r : Int} {c d : Nat} (includes : g.Includes a b)
    (memL : .call r c ∈ g.entries a) (memR : .call r d ∈ g.entries b) : g.Includes c d := by
  intro stack has
  rw [← hasStack_cons_of_mem memL]
  exact includes _ (.call memR has)

theorem Includes.sameStacks (includes : g.Includes a b) (includes' : g.Includes b a) :
    g.SameStacks a b :=
  fun stack => ⟨includes' stack, includes stack⟩

/-- The entries of a node are covered by those of a node that includes it. -/
theorem Includes.covers {S : Nat → Nat → Prop} (includes : g.Includes a b)
    (below : ∀ r c d, .call r c ∈ g.entries a → .call r d ∈ g.entries b → S c d) :
    Covers S (g.entries a) (g.entries b) := by
  intro f mem
  cases f with
  | ended => exact ⟨.ended, hasStack_nil.mp (includes [] (.ended mem)), .ended⟩
  | call r d =>
      obtain ⟨stack, has⟩ := g.exists_hasStack d
      obtain ⟨c, mem', -⟩ := hasStack_cons.mp (includes (r :: stack) (.call mem has))
      exact ⟨.call r c, mem', .call (below r c d mem' mem)⟩

/-- The callers of a kept node are told apart, so none of them becomes another. -/
theorem shareCallers_kept {n : Nat} (inRange : g.InRange) (sound : table.Sound g)
    (keeps : table.Keeps g n) : shareCallers g.same [] (g.entries n) = g.entries n := by
  refine shareCallers_eq (P := table.Keeps g) (fun c d keepsC keepsD same => ?_) (by simp)
    fun r c mem => keeps.caller sound mem
  exact keepsD.unique sound keepsC ((same_iff inRange).mp same)

/-- A kept node is picked when it includes the other. -/
theorem picks_left (inRange : g.InRange) (sound : table.Sound g) :
    g.Picks (fun x y => table.Keeps g x ∧ g.Includes x y) fun x _ => x where
  below related memL memR := ⟨related.1.caller sound memL, related.2.below memL memR⟩
  swap related related' := related.1.unique sound related'.1 (related.2.sameStacks related'.2)
  same _ _ := rfl
  combine {x y merged?} related ready := by
    have woven : weave merged? (g.entries x) (g.entries y) = .ok (g.entries x) :=
      weave_eq_left (g.entries_pairwise x) (g.entries_pairwise y) (related.2.covers ready)
    unfold StackGraph.combine
    rw [woven]
    simp only [shareCallers_kept inRange sound related.1, if_true]

/-- Of two kept nodes the second is picked when it includes the first. -/
theorem picks_right (inRange : g.InRange) (sound : table.Sound g) :
    g.Picks (fun x y => (table.Keeps g x ∧ table.Keeps g y) ∧ g.Includes y x) fun _ y => y where
  below related memL memR :=
    ⟨⟨related.1.1.caller sound memL, related.1.2.caller sound memR⟩, related.2.below memR memL⟩
  swap related related' :=
    (related.1.1.unique sound related.1.2 (related'.2.sameStacks related.2)).symm
  same related same := (related.1.1.unique sound related.1.2 ((same_iff inRange).mp same)).symm
  combine {x y merged?} related ready := by
    have covers : Covers (fun d c => d = c ∨ merged? c d = some d) (g.entries y) (g.entries x) :=
      related.2.covers fun r d c memR memL => (ready r c d memL memR).imp_left Eq.symm
    have woven : weave merged? (g.entries x) (g.entries y) = .ok (g.entries y) := by
      rw [weave_comm]
      exact weave_eq_left (g.entries_pairwise y) (g.entries_pairwise x) covers
    unfold StackGraph.combine
    rw [woven]
    simp only [shareCallers_kept inRange sound related.1.2, if_true]
    split
    · next same =>
        rw [related.1.1.unique sound related.1.2 (sameStacks_of_entries same.symm)]
    · rfl

end StackGraph

/-! ### At all moments of a run -/

namespace ContextStore

/-- The node is canonical: it is the root, or the table keeps it. -/
def Canonical (s : ContextStore) (table n : Nat) : Prop :=
  (s.tables table).Keeps s.graph n

/-- A step of the run answered with the node as a canonical node of the table. -/
inductive Answered (table : Nat) : List ContextOp → Nat → Prop where
  | canonical {before later : List ContextOp} {map x : Option Nat} {n : Nat} {t : ContextStore} :
      (reached before).canonical table map x = .ok (n, t) →
      Answered table (before ++ .canonical table map x :: later) n
  | mergeAll {before later : List ContextOp} {nodes : List (Option Nat)} {n : Nat}
      {t : ContextStore} :
      (reached before).mergeAll table nodes = .ok (n, t) →
      Answered table (before ++ .mergeAll table nodes :: later) n

/-- What was answered as a canonical node stays one. -/
theorem Answered.canonical_reached {table n : Nat} {ops : List ContextOp}
    (answered : Answered table ops n) : (reached ops).Canonical table n := by
  cases answered with
  | @canonical before later map x _ t result =>
      obtain ⟨n', t', result', ⟨sound, -⟩, keeps, -⟩ :=
        (reached_sound before).canonical table map x
      rw [result] at result'
      cases result'
      have grows : t.Grows (reached (before ++ .canonical table map x :: later)) :=
        grows_reached sound (by rw [exec, result]; rfl)
      exact keeps.grow (sound.tables table) grows.graph (grows.tables table)
  | @mergeAll before later nodes _ t result =>
      obtain ⟨n', t', result', ⟨sound, -⟩, keeps, -⟩ :=
        (reached_sound before).mergeAll table nodes
      rw [result] at result'
      cases result'
      have grows : t.Grows (reached (before ++ .mergeAll table nodes :: later)) :=
        grows_reached sound (by rw [exec, result]; rfl)
      exact keeps.grow (sound.tables table) grows.graph (grows.tables table)

/-- A merge that makes no node leaves the store as it was. -/
theorem merge_eq_of_picked {s : ContextStore} {a b : Option Nat} {n : Nat} {memo : MergeMemo}
    (picked : s.graph.merge {} a b = .ok ⟨n, s.graph, memo⟩) :
    s.merge none a b = .ok (n, s) := by
  change (s.graph.merge {} a b).map _ = _
  rw [picked]
  rfl

/-- What a step answers as a canonical node of a table is canonical from then on. Merging a
canonical node, without a memo, with any node all of whose stacks it has gives back the canonical
node; and merging two canonical nodes of one table gives back the second when it has all stacks of
the first. Neither makes a node. -/
theorem merge_eq_included (ops : List ContextOp) (table : Nat) :
    (∀ n, Answered table ops n → (reached ops).Canonical table n) ∧
      (∀ a b, (reached ops).Canonical table a →
        (∀ stack, (reached ops).StandsFor b stack → (reached ops).StandsFor (some a) stack) →
        (reached ops).merge none (some a) b = .ok (a, reached ops)) ∧
      ∀ a b, (reached ops).Canonical table a → (reached ops).Canonical table b →
        (∀ stack, (reached ops).StandsFor (some a) stack →
          (reached ops).StandsFor (some b) stack) →
        (reached ops).merge none (some a) (some b) = .ok (b, reached ops) := by
  have sound := reached_sound ops
  have kept := sound.tables table
  have named : ∀ {n}, (reached ops).Canonical table n →
      (reached ops).graph.resolveRef (some n) = n := fun canonical =>
    resolve_eq (CanonicalTable.Keeps.le kept canonical)
  refine ⟨fun n answered => answered.canonical_reached, fun a b canonA includes => ?_,
    fun a b canonA canonB includes => ?_⟩
  · unfold StandsFor at includes
    rw [named canonA] at includes
    obtain ⟨memo, merged⟩ := (picks_left sound.inRange kept).merge (a := some a) (b := b)
      sound.inRange ⟨(named canonA).symm ▸ canonA, (named canonA).symm ▸ includes⟩
    rw [named canonA] at merged
    exact merge_eq_of_picked merged
  · unfold StandsFor at includes
    rw [named canonA, named canonB] at includes
    obtain ⟨memo, merged⟩ := (picks_right sound.inRange kept).merge (a := some a) (b := some b)
      sound.inRange (by rw [named canonA, named canonB]; exact ⟨⟨canonA, canonB⟩, includes⟩)
    rw [named canonB] at merged
    exact merge_eq_of_picked merged

/-- A run that makes two calls, merges them for a table, and finds the canonical node of one. -/
def callsMerged : List ContextOp :=
  twoCalls ++ [.mergeAll 0 [some 1, some 2], .canonical 0 none (some 1)]

/-- The merged calls include each of the calls, whether the call is canonical or not. -/
theorem merge_eq_included_callsMerged :
    ∃ m n, Answered 0 callsMerged m ∧ Answered 0 callsMerged n ∧
      (reached callsMerged).merge none (some n) (some 2) = .ok (n, reached callsMerged) ∧
      (reached callsMerged).merge none (some m) (some n) = .ok (n, reached callsMerged) := by
  obtain ⟨n, t, merged, ⟨sound, grows⟩, keepsN, union⟩ :=
    (reached_sound twoCalls).mergeAll 0 [some 1, some 2]
  obtain rfl : reached (twoCalls ++ [.mergeAll 0 [some 1, some 2]]) = t := by
    rw [reached_concat, exec, merged]
    rfl
  obtain ⟨m, u, found, ⟨-, grows'⟩, keepsM, same⟩ := Sound.canonical sound 0 none (some 1)
  obtain rfl : reached callsMerged = u := by
    have concat := reached_concat (twoCalls ++ [.mergeAll 0 [some 1, some 2]])
      (.canonical 0 none (some 1))
    rw [exec, found] at concat
    exact concat
  have answeredN : Answered 0 callsMerged n := .mergeAll merged
  have answeredM : Answered 0 callsMerged m := .canonical found
  obtain ⟨canonical, left, right⟩ := merge_eq_included callsMerged 0
  have names : ∀ k ∈ [some 1, some 2], (reached twoCalls).graph.Names k :=
    List.forall_mem_cons.mpr ⟨names_twoCalls.1, List.forall_mem_singleton.mpr names_twoCalls.2⟩
  have stacksN : ∀ stack, (reached callsMerged).StandsFor (some n) stack ↔
      stack = [1] ∨ stack = [2] := by
    intro stack
    have le := CanonicalTable.Keeps.le (sound.tables 0) keepsN
    rw [standsFor_some (Nat.le_trans le grows'.graph.size_le), grows'.graph.hasStack le,
      union names]
    simpa [UnionHas, StandsFor] using
      or_congr (standsFor_twoCalls stack).1 (standsFor_twoCalls stack).2
  refine ⟨m, n, answeredM, answeredN, left n (some 2) (canonical n answeredN) fun stack has => ?_,
    right m n (canonical m answeredM) (canonical n answeredN) fun stack has => ?_⟩
  · rw [(grows.trans grows').standsFor names_twoCalls.2, (standsFor_twoCalls stack).2] at has
    exact (stacksN stack).mpr (.inr has)
  · have kept := CanonicalTable.Keeps.le ((reached_sound callsMerged).tables 0) keepsM
    have named := (names_twoCalls.1.grow grows.graph).resolveRef_eq grows'.graph
    rw [standsFor_some kept, ← same stack, ← named] at has
    change (reached callsMerged).StandsFor (some 1) stack at has
    rw [(grows.trans grows').standsFor names_twoCalls.1, (standsFor_twoCalls stack).1] at has
    exact (stacksN stack).mpr (.inl has)

/-- A run that makes a call twice, node `3` above both copies and node `4` above the first. -/
def callsApart : List ContextOp :=
  [.single none ⟨5, by decide⟩, .single none ⟨5, by decide⟩,
    .ofReturns [some 1, some 2] [⟨3, by decide⟩, ⟨4, by decide⟩], .single (some 1) ⟨3, by decide⟩]

/-- Copies of a call that no table has made one are shared by the merge itself: what includes the
other node is then not given back, but a new node with the stacks of it. -/
example :
    (∀ stack, (reached callsApart).StandsFor (some 4) stack →
      (reached callsApart).StandsFor (some 3) stack) ∧
      ∃ t, (reached callsApart).merge none (some 3) (some 4) = .ok (5, t) := by
  have upper : (reached callsApart).graph.entries 3 = [.call 3 1, .call 4 2] := rfl
  have lower : (reached callsApart).graph.entries 4 = [.call 3 1] := rfl
  have apart : (reached callsApart).graph.same 3 4 = false := Loop.run_eq_of_runFor (n := 5) rfl _
  have copies : (reached callsApart).graph.same 1 2 = true := Loop.run_eq_of_runFor (n := 5) rfl _
  refine ⟨fun stack has => ?_, ?_⟩
  · rw [standsFor_some (by decide), hasStack_iff_offers] at has ⊢
    rw [lower] at has
    rw [upper]
    cases stack with
    | nil => simp [Offers] at has
    | cons r stack =>
      obtain ⟨c, mem, has⟩ := has
      exact ⟨c, List.mem_cons.mpr (.inl (List.mem_singleton.mp mem)), has⟩
  · have woven : weave ({} : MergeMemo).find? [.call 3 1, .call 4 2] [.call 3 1] =
        .ok [.call 3 1, .call 4 2] := by simp [weave, StackEntry.before]
    have shared : shareCallers (reached callsApart).graph.same [] [.call 3 1, .call 4 2] =
        [.call 3 1, .call 4 1] := by simp [shareCallers, copies]
    have combined : (reached callsApart).graph.combine ({} : MergeMemo).find? 3 4 =
        (reached callsApart).graph.ofEntries [.call 3 1, .call 4 1] := by
      rw [combine, upper, lower, woven]
      simp [shared]
    have ready : sharedReturns ((reached callsApart).graph.entries 3)
        ((reached callsApart).graph.entries 4) = [] := by
      rw [upper, lower]
      simp [sharedReturns, StackEntry.before]
    have merged := merge_of_ready apart ready (combined.trans rfl) (by decide) (by decide)
    exact ⟨_, congrArg (Except.map _) merged⟩

end ContextStore

end GrammarNet
