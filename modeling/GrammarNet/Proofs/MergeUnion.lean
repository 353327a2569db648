import GrammarNet.StackGraph.Merge
import GrammarNet.Proofs.SameTree

/-!
A merge is the union of the stacks of two nodes.

* `Weaves` says what the merged entries are, given results for the callers below equal return
  states, and `Weaves.offers` that they offer the stacks of both lists.
* `Merging.took_of_round`: what one round of a merge can do.
* `combine_spec`: two nodes whose callers have results have one themselves.
* `merge_spec`: a merge ends with the union, whatever the memo holds, as long as all that it holds
  are unions (`MergeMemo.Sound`). This is so for what merges write, and it stays so when the graph
  grows.

A memo may also hold nodes that are no unions of what it has them for. So all of this is stated for
a proposition `trusted`, and says that nodes are unions if it is true. That a merge ends, and makes
a node with ascending entries, is so in any case.
-/

namespace GrammarNet

namespace StackGraph

open StackEntry

variable {g h : StackGraph} {a b n : Nat} {trusted : Prop}

/-! ### Nodes that are made -/

/-- Calls of the entries return below the mark for the end, to callers that are nodes. -/
def Fitting (g : StackGraph) (entries : List StackEntry) : Prop :=
  ∀ r c, .call r c ∈ entries → r < endMark ∧ c ≤ g.nodes.size

theorem fitting_entries (inRange : g.InRange) (le : n ≤ g.nodes.size) :
    g.Fitting (g.entries n) :=
  fun r c mem => ⟨inRange n r c mem, caller_le le mem rfl⟩

/-- The graph grew, and has a node with these entries. -/
structure Made (g : StackGraph) (entries : List StackEntry) (n : Nat) (h : StackGraph) : Prop where
  grows : g.Grows h
  inRange : h.InRange
  le : n ≤ h.nodes.size
  entries_eq : h.entries n = entries

theorem made_root (inRange : g.InRange) : g.Made StackNode.rootEntries root g where
  grows := .refl g
  inRange := inRange
  le := Nat.zero_le _
  entries_eq := rfl

theorem made_push {entries : List StackEntry} (inRange : g.InRange)
    (callers_le : ∀ e ∈ entries, ∀ c, e.caller? = some c → c ≤ g.nodes.size)
    (asc : ascending entries = true) (ne_nil : entries ≠ [])
    (ne_root : entries ≠ StackNode.rootEntries) (below : BelowMark entries) :
    g.Made entries (g.push entries callers_le asc ne_nil ne_root).1
      (g.push entries callers_le asc ne_nil ne_root).2 where
  grows :=
    { size_le := by rw [size_push]; omega
      entries := fun m le => by rw [entries_push, if_neg (by omega)] }
  inRange := by
    intro m
    rw [entries_push]
    split
    · exact below
    · exact inRange m
  le := Nat.le_of_eq (size_push ..).symm
  entries_eq := by rw [entries_push]; exact if_pos rfl

theorem map_resolve_eq {entries : List StackEntry} (fits : g.Fitting entries) :
    entries.map (·.withCaller g.resolve) = entries := by
  refine (List.map_congr_left fun e mem => ?_).trans (List.map_id entries)
  cases e with
  | ended => rfl
  | call r c => rw [withCaller, resolve_eq (fits r c mem).2]; rfl

/-- Ascending entries make a node. -/
theorem made_ofEntries {entries : List StackEntry} (inRange : g.InRange)
    (fits : g.Fitting entries) (asc : entries.Pairwise fun a b => a.before b = true)
    (ne_nil : entries ≠ []) : ∃ n h, g.ofEntries entries = .ok (n, h) ∧ g.Made entries n h := by
  have same := map_resolve_eq fits
  have below : BelowMark entries := fun r c mem => (fits r c mem).1
  unfold ofEntries
  simp only [same]
  rw [dif_neg ne_nil, dif_pos (ascending_iff.mpr asc)]
  split
  · next ended =>
      rw [ended]
      exact ⟨_, _, rfl, made_root inRange⟩
  · next inner =>
      have callers_le : ∀ e ∈ entries, ∀ c, e.caller? = some c → c ≤ g.nodes.size := by
        intro e mem c hc
        cases e with
        | ended => cases hc
        | call r d =>
            cases hc
            exact (fits r c mem).2
      exact ⟨_, _, rfl, made_push inRange callers_le (ascending_iff.mpr asc) ne_nil inner below⟩

/-! ### Entries of two nodes -/

/-- The node stands for the stacks of both others. -/
def Joins (g : StackGraph) (a b n : Nat) : Prop :=
  ∀ stack, g.HasStack n stack ↔ g.HasStack a stack ∨ g.HasStack b stack

theorem SameStacks.joins (same : g.SameStacks a b) : g.Joins a b a := by
  intro stack
  rw [← same stack, or_self]

theorem Joins.symm (joins : g.Joins a b n) : g.Joins b a n :=
  fun stack => (joins stack).trans Or.comm

theorem Grows.joins (grows : g.Grows h) (ha : a ≤ g.nodes.size) (hb : b ≤ g.nodes.size)
    (hn : n ≤ g.nodes.size) : h.Joins a b n ↔ g.Joins a b n :=
  forall_congr' fun _ =>
    iff_congr (grows.hasStack hn) (or_congr (grows.hasStack ha) (grows.hasStack hb))

/-- Two lists of entries woven into one. Below equal return states stands a node, which is trusted to
have the stacks of both callers. -/
inductive Weaves (g : StackGraph) (trusted : Prop) :
    List StackEntry → List StackEntry → List StackEntry → Prop
  | nil {ys : List StackEntry} : Weaves g trusted [] ys ys
  | rest {xs : List StackEntry} : Weaves g trusted xs [] xs
  | left {x y : StackEntry} {xs ys es : List StackEntry} :
      x.before y = true → Weaves g trusted xs (y :: ys) es →
      Weaves g trusted (x :: xs) (y :: ys) (x :: es)
  | right {x y : StackEntry} {xs ys es : List StackEntry} :
      y.before x = true → Weaves g trusted (x :: xs) ys es →
      Weaves g trusted (x :: xs) (y :: ys) (y :: es)
  | ended {xs ys es : List StackEntry} :
      Weaves g trusted xs ys es → Weaves g trusted (.ended :: xs) (.ended :: ys) (.ended :: es)
  | call {r : Int} {c d m : Nat} {xs ys es : List StackEntry} :
      m ≤ g.nodes.size → (trusted → g.Joins c d m) → Weaves g trusted xs ys es →
      Weaves g trusted (.call r c :: xs) (.call r d :: ys) (.call r m :: es)

section Weaves

variable {xs ys es : List StackEntry} {stack : List Int}

theorem offers_cons (e : StackEntry) (es : List StackEntry) :
    g.Offers (e :: es) stack ↔ g.Offers [e] stack ∨ g.Offers es stack := by
  cases stack with
  | nil => simp only [Offers, List.mem_cons, List.not_mem_nil, or_false]
  | cons r stack =>
      simp only [Offers, List.mem_cons, List.not_mem_nil, or_false, or_and_right, exists_or]

theorem Grows.offers (grows : g.Grows h) (fits : g.Fitting es) :
    h.Offers es stack ↔ g.Offers es stack := by
  cases stack with
  | nil => exact Iff.rfl
  | cons r stack =>
      exact exists_congr fun c => and_congr_right fun mem => grows.hasStack (fits r c mem).2

theorem not_offers_nil : ¬ g.Offers [] stack := by
  cases stack <;> simp [Offers]

theorem offers_joined {r : Int} {c d m : Nat} (joins : g.Joins c d m) :
    g.Offers [.call r m] stack ↔ g.Offers [.call r c] stack ∨ g.Offers [.call r d] stack := by
  cases stack with
  | nil => simp [Offers]
  | cons s stack => simp [Offers, joins stack, and_or_left]

/-- Woven entries offer the stacks of both lists. -/
theorem Weaves.offers (weaves : g.Weaves trusted xs ys es) (trust : trusted) :
    g.Offers es stack ↔ g.Offers xs stack ∨ g.Offers ys stack := by
  induction weaves with
  | nil => simp [not_offers_nil]
  | rest => simp [not_offers_nil]
  | @left x y xs ys es _ _ ih => rw [offers_cons x es, offers_cons x xs, ih, or_assoc]
  | @right x y xs ys es _ _ ih => rw [offers_cons y es, offers_cons y ys, ih, or_left_comm]
  | @ended xs ys es _ ih =>
      rw [offers_cons _ es, offers_cons _ xs, offers_cons _ ys, ih, or_or_or_comm, or_self]
  | @call r c d m xs ys es _ joins _ ih =>
      rw [offers_cons _ es, offers_cons _ xs, offers_cons _ ys, ih,
        offers_joined (joins trust), or_or_or_comm]

theorem before_call_left {r : Int} {e : StackEntry} (c d : Nat) :
    (StackEntry.call r c).before e = (StackEntry.call r d).before e := by
  cases e <;> rfl

theorem before_call_right {r : Int} {e : StackEntry} (c d : Nat) :
    e.before (.call r c) = e.before (.call r d) := by
  cases e <;> rfl

/-- What comes before both lists comes before the woven entries. -/
theorem Weaves.before (weaves : g.Weaves trusted xs ys es) {z : StackEntry}
    (beforeL : ∀ x ∈ xs, z.before x = true) (beforeR : ∀ y ∈ ys, z.before y = true) :
    ∀ e ∈ es, z.before e = true := by
  induction weaves with
  | nil => exact beforeR
  | rest => exact beforeL
  | left _ _ ih =>
      obtain ⟨first, rest⟩ := List.forall_mem_cons.mp beforeL
      exact List.forall_mem_cons.mpr ⟨first, ih rest beforeR⟩
  | right _ _ ih =>
      obtain ⟨first, rest⟩ := List.forall_mem_cons.mp beforeR
      exact List.forall_mem_cons.mpr ⟨first, ih beforeL rest⟩
  | ended _ ih =>
      obtain ⟨first, restL⟩ := List.forall_mem_cons.mp beforeL
      exact List.forall_mem_cons.mpr ⟨first, ih restL (List.forall_mem_cons.mp beforeR).2⟩
  | @call r c d m xs ys es _ _ _ ih =>
      obtain ⟨first, restL⟩ := List.forall_mem_cons.mp beforeL
      rw [before_call_right c m] at first
      exact List.forall_mem_cons.mpr ⟨first, ih restL (List.forall_mem_cons.mp beforeR).2⟩

/-- Woven entries ascend when both lists do. -/
theorem Weaves.pairwise (weaves : g.Weaves trusted xs ys es)
    (ascL : xs.Pairwise fun a b => a.before b = true)
    (ascR : ys.Pairwise fun a b => a.before b = true) :
    es.Pairwise fun a b => a.before b = true := by
  induction weaves with
  | nil => exact ascR
  | rest => exact ascL
  | left less weaves ih =>
      obtain ⟨first, rest⟩ := List.pairwise_cons.mp ascL
      have ahead := (List.pairwise_cons.mp ascR).1
      exact List.pairwise_cons.mpr ⟨weaves.before first
        (List.forall_mem_cons.mpr ⟨less, fun y mem => before_trans less (ahead y mem)⟩), ih rest ascR⟩
  | right less weaves ih =>
      obtain ⟨first, rest⟩ := List.pairwise_cons.mp ascR
      have ahead := (List.pairwise_cons.mp ascL).1
      exact List.pairwise_cons.mpr ⟨weaves.before
        (List.forall_mem_cons.mpr ⟨less, fun x mem => before_trans less (ahead x mem)⟩) first,
        ih ascL rest⟩
  | ended weaves ih =>
      obtain ⟨firstL, restL⟩ := List.pairwise_cons.mp ascL
      obtain ⟨firstR, restR⟩ := List.pairwise_cons.mp ascR
      exact List.pairwise_cons.mpr ⟨weaves.before firstL firstR, ih restL restR⟩
  | @call r c d m _ _ _ _ _ weaves ih =>
      obtain ⟨firstL, restL⟩ := List.pairwise_cons.mp ascL
      obtain ⟨firstR, restR⟩ := List.pairwise_cons.mp ascR
      refine List.pairwise_cons.mpr ⟨weaves.before (fun e mem => ?_) (fun e mem => ?_), ih restL restR⟩
      · rw [before_call_left m c]
        exact firstL e mem
      · rw [before_call_left m d]
        exact firstR e mem

theorem fitting_cons {e : StackEntry} :
    g.Fitting (e :: es) ↔ g.Fitting [e] ∧ g.Fitting es := by
  simp only [Fitting, List.mem_cons, List.not_mem_nil, or_false]
  exact ⟨fun all => ⟨fun r c mem => all r c (.inl mem), fun r c mem => all r c (.inr mem)⟩,
    fun ⟨first, rest⟩ r c mem => mem.elim (first r c) (rest r c)⟩

theorem Weaves.ne_nil (weaves : g.Weaves trusted xs ys es) (inner : xs ≠ []) : es ≠ [] := by
  cases weaves with
  | nil => exact absurd rfl inner
  | rest => exact inner
  | left _ _ => exact List.cons_ne_nil _ _
  | right _ _ => exact List.cons_ne_nil _ _
  | ended _ => exact List.cons_ne_nil _ _
  | call _ _ _ => exact List.cons_ne_nil _ _

theorem Weaves.fitting (weaves : g.Weaves trusted xs ys es) (fitL : g.Fitting xs)
    (fitR : g.Fitting ys) : g.Fitting es := by
  induction weaves with
  | nil => exact fitR
  | rest => exact fitL
  | left _ _ ih =>
      obtain ⟨first, rest⟩ := fitting_cons.mp fitL
      exact fitting_cons.mpr ⟨first, ih rest fitR⟩
  | right _ _ ih =>
      obtain ⟨first, rest⟩ := fitting_cons.mp fitR
      exact fitting_cons.mpr ⟨first, ih fitL rest⟩
  | ended _ ih =>
      exact fitting_cons.mpr ⟨(fitting_cons.mp fitL).1,
        ih (fitting_cons.mp fitL).2 (fitting_cons.mp fitR).2⟩
  | @call r c d m xs ys es le _ _ ih =>
      obtain ⟨first, restL⟩ := fitting_cons.mp fitL
      refine fitting_cons.mpr ⟨fun s e mem => ?_, ih restL (fitting_cons.mp fitR).2⟩
      cases List.mem_singleton.mp mem
      exact ⟨(first r c List.mem_cons_self).1, le⟩

theorem sharedReturns_left {x y : StackEntry} (less : x.before y = true) :
    sharedReturns (x :: xs) (y :: ys) = sharedReturns xs (y :: ys) := by
  rw [sharedReturns.eq_def]
  exact if_pos less

theorem sharedReturns_right {x y : StackEntry} (notLess : ¬ x.before y = true)
    (less : y.before x = true) :
    sharedReturns (x :: xs) (y :: ys) = sharedReturns (x :: xs) ys := by
  rw [sharedReturns.eq_def]
  exact (if_neg notLess).trans (if_pos less)

theorem sharedReturns_ended :
    sharedReturns (.ended :: xs) (.ended :: ys) = sharedReturns xs ys := by
  rw [sharedReturns.eq_def]
  rfl

theorem sharedReturns_call {r : Int} {c d : Nat} :
    sharedReturns (.call r c :: xs) (.call r d :: ys) =
      if c = d then sharedReturns xs ys else (c, d) :: sharedReturns xs ys := by
  rw [sharedReturns.eq_def]
  simp [before]

/-- Entries neither of which comes before the other are both ends when they are not both calls. -/
theorem both_ended_of_not_before {x y : StackEntry} (notLess : ¬ x.before y = true)
    (notLess' : ¬ y.before x = true)
    (mixed : ∀ r c s d, x = .call r c → y = .call s d → False) : x = .ended ∧ y = .ended := by
  cases x with
  | ended =>
      cases y with
      | ended => exact ⟨rfl, rfl⟩
      | call s d => exact absurd rfl notLess'
  | call r c =>
      cases y with
      | ended => exact absurd rfl notLess
      | call s d => exact (mixed r c s d rfl rfl).elim

/-- Entries are woven when there are results for the callers below equal return states. -/
theorem weaves_of_ready {merged? : Nat → Nat → Option Nat}
    (ready : ∀ c d, (c, d) ∈ sharedReturns xs ys →
      ∃ m, merged? c d = some m ∧ m ≤ g.nodes.size ∧ (trusted → g.Joins c d m))
    (fits : g.Fitting xs) : ∃ es, weave merged? xs ys = .ok es ∧ g.Weaves trusted xs ys es := by
  fun_induction weave merged? xs ys with
  | case1 ys => exact ⟨ys, rfl, .nil⟩
  | case2 x xs => exact ⟨x :: xs, rfl, .rest⟩
  | case3 x xs y ys less ih =>
      rw [sharedReturns_left less] at ready
      obtain ⟨es, woven, weaves⟩ := ih ready (fitting_cons.mp fits).2
      exact ⟨x :: es, by rw [woven]; rfl, .left less weaves⟩
  | case4 x xs y ys notLess less ih =>
      rw [sharedReturns_right notLess less] at ready
      obtain ⟨es, woven, weaves⟩ := ih ready fits
      exact ⟨y :: es, by rw [woven]; rfl, .right less weaves⟩
  | case5 xs ys r s c notLess notLess' ih =>
      obtain rfl := return_eq_of_not_before notLess notLess'
      rw [sharedReturns_call, if_pos rfl] at ready
      obtain ⟨es, woven, weaves⟩ := ih ready (fitting_cons.mp fits).2
      exact ⟨.call r c :: es, by rw [woven]; rfl,
        .call (fits r c List.mem_cons_self).2 (fun _ => (SameStacks.refl g c).joins) weaves⟩
  | case6 xs ys r c s d apart m found notLess notLess' ih =>
      obtain rfl := return_eq_of_not_before notLess notLess'
      rw [sharedReturns_call, if_neg apart] at ready
      obtain ⟨es, woven, weaves⟩ :=
        ih (fun c d mem => ready c d (List.mem_cons_of_mem _ mem)) (fitting_cons.mp fits).2
      obtain ⟨m', found', le, joins⟩ := ready c d List.mem_cons_self
      obtain rfl : m' = m := Option.some.inj (found'.symm.trans found)
      exact ⟨.call r m' :: es, by rw [woven]; rfl, .call le joins weaves⟩
  | case7 xs ys r c s d apart found notLess notLess' =>
      obtain rfl := return_eq_of_not_before notLess notLess'
      rw [sharedReturns_call, if_neg apart] at ready
      obtain ⟨m, found', -⟩ := ready c d List.mem_cons_self
      rw [found] at found'
      cases found'
  | case8 x xs y ys notLess notLess' mixed ih =>
      obtain ⟨rfl, rfl⟩ := both_ended_of_not_before notLess notLess' mixed
      rw [sharedReturns_ended] at ready
      obtain ⟨es, woven, weaves⟩ := ih ready (fitting_cons.mp fits).2
      exact ⟨.ended :: es, by rw [woven]; rfl, .ended weaves⟩

end Weaves

/-! ### Equal callers become one -/

section Sharing

variable {R : Nat → Nat → Prop} {es fs : List StackEntry}

theorem pairwise_of_forall₂ (all : List.Forall₂ (Matches R) es fs)
    (asc : es.Pairwise fun a b => a.before b = true) : fs.Pairwise fun a b => a.before b = true := by
  induction all with
  | nil => exact .nil
  | @cons e f es fs first rest ih =>
      obtain ⟨ahead, asc⟩ := List.pairwise_cons.mp asc
      refine List.pairwise_cons.mpr ⟨fun f' mem => ?_, ih asc⟩
      obtain ⟨e', mem', h⟩ := exists_matches_of_mem (forall₂_matches_symm rest) mem
      rw [← first.before_eq h.symm]
      exact ahead e' mem'

theorem fitting_of_forall₂ (all : List.Forall₂ (Matches R) es fs) (fits : g.Fitting es)
    (le : ∀ c d, R c d → d ≤ g.nodes.size) : g.Fitting fs := by
  intro r d mem
  obtain ⟨c, mem', related⟩ := exists_call_of_forall₂ (forall₂_matches_symm all) mem
  exact ⟨(fits r c mem').1, le c d related⟩

/-- Every caller becomes one that is the same. -/
theorem shareCallers_matches {same : Nat → Nat → Bool} {earlier : List Nat}
    (sound : ∀ c d, same c d = true → g.SameStacks c d) (fits : g.Fitting es)
    (nodes : ∀ c ∈ earlier, c ≤ g.nodes.size) :
    List.Forall₂ (Matches fun c d => g.SameStacks c d ∧ d ≤ g.nodes.size) es
      (shareCallers same earlier es) := by
  induction es generalizing earlier with
  | nil => exact .nil
  | cons e es ih =>
      obtain ⟨first, rest⟩ := fitting_cons.mp fits
      cases e with
      | ended => exact .cons .ended (ih rest nodes)
      | call r c =>
          have le := (first r c List.mem_cons_self).2
          rw [shareCallers]
          split
          · next d found =>
              have mem := List.mem_of_find?_eq_some found
              have here := sound d c (by simpa using List.find?_some found)
              exact .cons (.call ⟨here.symm, nodes d mem⟩) (ih rest nodes)
          · refine .cons (.call ⟨.refl g c, le⟩) (ih rest fun d mem => ?_)
            rcases List.mem_append.mp mem with mem | mem
            · exact nodes d mem
            · exact List.mem_singleton.mp mem ▸ le

end Sharing

/-! ### One node for two -/

/-- The graph grew, and has a node with the stacks of both. -/
structure Joined (g : StackGraph) (a b n : Nat) (h : StackGraph) : Prop where
  grows : g.Grows h
  inRange : h.InRange
  le : n ≤ h.nodes.size
  joins : h.Joins a b n

/-- The graph grew, and has a node that is trusted to have the stacks of both. -/
structure Combined (g : StackGraph) (trusted : Prop) (a b n : Nat) (h : StackGraph) : Prop where
  grows : g.Grows h
  inRange : h.InRange
  le : n ≤ h.nodes.size
  joins : trusted → h.Joins a b n

theorem Combined.joined (combined : g.Combined trusted a b n h) (trust : trusted) :
    g.Joined a b n h :=
  { combined with joins := combined.joins trust }

/-- Two nodes whose callers have results have one themselves. -/
theorem combine_spec {merged? : Nat → Nat → Option Nat} (inRange : g.InRange)
    (ha : a ≤ g.nodes.size) (hb : b ≤ g.nodes.size)
    (ready : ∀ c d, (c, d) ∈ sharedReturns (g.entries a) (g.entries b) →
      ∃ m, merged? c d = some m ∧ m ≤ g.nodes.size ∧ (trusted → g.Joins c d m)) :
    ∃ n h, g.combine merged? a b = .ok (n, h) ∧ g.Combined trusted a b n h := by
  have fitA := fitting_entries inRange ha
  have fitB := fitting_entries inRange hb
  obtain ⟨woven, weave, weaves⟩ := weaves_of_ready ready fitA
  have asc := weaves.pairwise (g.entries_pairwise a) (g.entries_pairwise b)
  have fits := weaves.fitting fitA fitB
  have shared : List.Forall₂ (Matches fun c d => g.SameStacks c d ∧ d ≤ g.nodes.size) woven
      (shareCallers g.same [] woven) :=
    shareCallers_matches (fun c d => (same_iff inRange).mp) fits (by simp)
  have offers : trusted → ∀ stack, g.Offers (shareCallers g.same [] woven) stack ↔
      g.HasStack a stack ∨ g.HasStack b stack := by
    intro trust stack
    rw [hasStack_iff_offers, hasStack_iff_offers, ← weaves.offers trust,
      offers_congr (shared.imp fun _ _ h => h.imp fun _ _ => And.left)]
  unfold combine
  rw [weave]
  simp only
  split
  · next same =>
      refine ⟨a, g, rfl, .refl g, inRange, ha, fun trust stack => ?_⟩
      rw [← offers trust stack, same, hasStack_iff_offers]
  · split
    · next same =>
        refine ⟨b, g, rfl, .refl g, inRange, hb, fun trust stack => ?_⟩
        rw [← offers trust stack, same, hasStack_iff_offers]
    · have ne_nil : shareCallers g.same [] woven ≠ [] := by
        intro none
        rw [none] at shared
        exact weaves.ne_nil (g.entries_ne_nil a) (List.forall₂_nil_right_iff.mp shared)
      have fits := fitting_of_forall₂ shared fits fun _ _ => And.right
      obtain ⟨n, h, result, made⟩ :=
        made_ofEntries inRange fits (pairwise_of_forall₂ shared asc) ne_nil
      refine ⟨n, h, result, made.grows, made.inRange, made.le, fun trust stack => ?_⟩
      rw [made.grows.hasStack ha, made.grows.hasStack hb, ← offers trust stack,
        hasStack_iff_offers, made.entries_eq, made.grows.offers fits]

/-! ### The memo -/

end StackGraph

open StackGraph

/-- All that the memo holds are nodes, which are trusted to be unions. -/
def MergeMemo.Sound (memo : MergeMemo) (trusted : Prop) (g : StackGraph) : Prop :=
  ∀ a b n, memo.results[[a, b]]? = some n →
    n ≤ g.nodes.size ∧ (trusted → (a ≤ g.nodes.size ∧ b ≤ g.nodes.size) ∧ g.Joins a b n)

namespace MergeMemo

variable {memo : MergeMemo} {g h : StackGraph} {a b n : Nat} {trusted : Prop}

theorem sound_empty (trusted : Prop) (g : StackGraph) : Sound {} trusted g := by
  intro a b n found
  simp at found

theorem Sound.grow (sound : memo.Sound trusted g) (grows : g.Grows h) : memo.Sound trusted h := by
  intro a b n found
  obtain ⟨hn, union⟩ := sound a b n found
  have le := grows.size_le
  refine ⟨Nat.le_trans hn le, fun trust => ?_⟩
  obtain ⟨⟨ha, hb⟩, joins⟩ := union trust
  exact ⟨⟨Nat.le_trans ha le, Nat.le_trans hb le⟩, (grows.joins ha hb hn).mpr joins⟩

theorem Sound.find? (sound : memo.Sound trusted g) (found : memo.find? a b = some n) :
    n ≤ g.nodes.size ∧ (trusted → g.Joins a b n) := by
  unfold MergeMemo.find? at found
  split at found
  · next here =>
      cases found
      obtain ⟨le, union⟩ := sound a b n here
      exact ⟨le, fun trust => (union trust).2⟩
  · obtain ⟨le, union⟩ := sound b a n found
    exact ⟨le, fun trust => (union trust).2.symm⟩

theorem Sound.record (sound : memo.Sound trusted g) (ha : a ≤ g.nodes.size)
    (hb : b ≤ g.nodes.size) (hn : n ≤ g.nodes.size) (joins : trusted → g.Joins a b n) :
    (memo.record a b n).Sound trusted g := by
  intro c d m found
  rw [MergeMemo.record, Std.TreeMap.getElem?_insertIfNew] at found
  split at found
  · next here =>
      cases found
      obtain ⟨rfl, rfl⟩ : a = c ∧ b = d := by simpa using here.1
      exact ⟨hn, fun trust => ⟨⟨ha, hb⟩, joins trust⟩⟩
  · exact sound c d m found

end MergeMemo

namespace StackGraph

/-! ### The whole merge -/

variable {g : StackGraph} {a b : Nat} {trusted : Prop}

namespace Merging

/-- The pairs of callers that two nodes share and that have no result. -/
def missing (s : Merging) (x y : Nat) : List (Nat × Nat) :=
  (sharedReturns (s.graph.entries x) (s.graph.entries y)).filter
    fun p => (s.memo.find? p.1 p.2).isNone

/-- When no pair is missing, all pairs of callers that two nodes share have results. -/
theorem exists_result {s : Merging} {x y c d : Nat} (ready : s.missing x y = [])
    (shared : (c, d) ∈ sharedReturns (s.graph.entries x) (s.graph.entries y)) :
    ∃ m, s.memo.find? c d = some m := by
  have found := List.filter_eq_nil_iff.mp ready (c, d) shared
  rw [Option.isNone_iff_eq_none] at found
  exact Option.ne_none_iff_exists'.mp found

/-- One round of a merge. -/
inductive Took (s : Merging) : Merging → Prop where
  | known {x y : Nat} {rest : List (Nat × Nat)} :
      s.work = (x, y) :: rest → (s.memo.find? x y).isSome = true →
      Took s { s with work := rest }
  | same {x y : Nat} {rest : List (Nat × Nat)} :
      s.work = (x, y) :: rest → s.memo.find? x y = none → s.graph.same x y = true →
      Took s { s with memo := s.memo.record x y x, work := rest }
  | combined {x y n : Nat} {h : StackGraph} {rest : List (Nat × Nat)} :
      s.work = (x, y) :: rest → s.memo.find? x y = none → s.missing x y = [] →
      s.graph.combine s.memo.find? x y = .ok (n, h) →
      Took s { graph := h, memo := s.memo.record x y n, work := rest }
  | planned {x y : Nat} {rest : List (Nat × Nat)} :
      s.work = (x, y) :: rest → s.memo.find? x y = none → s.missing x y ≠ [] →
      Took s { s with work := (s.missing x y).reverse ++ s.work }

/-- A round is one of those listed. -/
theorem took_of_round {s t : Merging} (round : mergeRound s = .next t) : s.Took t := by
  unfold mergeRound at round
  split at round
  · cases round
  · next x y rest front =>
      split at round
      · next found =>
          cases round
          exact .known front found
      · next fresh =>
          have fresh : s.memo.find? x y = none := by simpa using fresh
          split at round
          · next same =>
              cases round
              exact .same front fresh same
          · split at round
            · next ready =>
                split at round
                · cases round
                · next result =>
                    cases round
                    exact .combined front fresh ready result
            · next p more planned =>
                cases round
                have missing : s.missing x y = p :: more := planned
                have took := Took.planned front fresh (by simp [missing])
                rwa [missing, front] at took

/-- A merge is over when no work is left, or when two nodes cannot be combined. -/
theorem round_done {s : Merging} {r : Except StackError (StackGraph × MergeMemo)}
    (round : mergeRound s = .done r) :
    (s.work = [] ∧ r = .ok (s.graph, s.memo)) ∨
      ∃ x y rest e, s.work = (x, y) :: rest ∧ s.missing x y = [] ∧
        s.graph.combine s.memo.find? x y = .error e ∧ r = .error e := by
  unfold mergeRound at round
  split at round
  · next idle =>
      cases round
      exact .inl ⟨idle, rfl⟩
  · next x y rest front =>
      split at round
      · cases round
      · split at round
        · cases round
        · split at round
          · next ready =>
              split at round
              · next e failed =>
                  cases round
                  exact .inr ⟨x, y, rest, e, front, ready, failed, rfl⟩
              · cases round
          · cases round

end Merging

/-- What holds while two nodes are merged. -/
structure Merging.Sound (trusted : Prop) (g : StackGraph) (a b : Nat) (s : Merging) : Prop where
  grows : g.Grows s.graph
  inRange : s.graph.InRange
  memo : s.memo.Sound trusted s.graph
  work : ∀ x y, (x, y) ∈ s.work → x ≤ s.graph.nodes.size ∧ y ≤ s.graph.nodes.size
  pending : (s.memo.find? a b).isSome = true ∨ (a, b) ∈ s.work

theorem Merging.sound_start {memo : MergeMemo} (inRange : g.InRange)
    (sound : memo.Sound trusted g) (ha : a ≤ g.nodes.size) (hb : b ≤ g.nodes.size) :
    Merging.Sound trusted g a b { graph := g, memo, work := [(a, b)] } where
  grows := .refl g
  inRange := inRange
  memo := sound
  work x y mem := by
    cases List.mem_singleton.mp mem
    exact ⟨ha, hb⟩
  pending := .inr List.mem_cons_self

/-- What is pending when the pair in front has a result. -/
theorem Merging.Sound.pop {s : Merging} {x y : Nat} {rest : List (Nat × Nat)} {memo : MergeMemo}
    (sound : s.Sound trusted g a b) (front : s.work = (x, y) :: rest)
    (here : (memo.find? x y).isSome = true)
    (wider : ∀ c d, (s.memo.find? c d).isSome = true → (memo.find? c d).isSome = true) :
    (memo.find? a b).isSome = true ∨ (a, b) ∈ rest := by
  rcases sound.pending with done | planned
  · exact .inl (wider a b done)
  · rw [front] at planned
    rcases List.mem_cons.mp planned with same | planned
    · cases same
      exact .inl here
    · exact .inr planned

/-- A result for the pair in front keeps all that holds. -/
theorem Merging.Sound.record {s : Merging} {x y n : Nat} {h : StackGraph}
    {rest : List (Nat × Nat)} (sound : s.Sound trusted g a b) (front : s.work = (x, y) :: rest)
    (combined : s.graph.Combined trusted x y n h) :
    Merging.Sound trusted g a b { graph := h, memo := s.memo.record x y n, work := rest } := by
  obtain ⟨hx, hy⟩ := sound.work x y (front ▸ List.mem_cons_self)
  have le := combined.grows.size_le
  exact
    { grows := sound.grows.trans combined.grows
      inRange := combined.inRange
      memo := (sound.memo.grow combined.grows).record (by omega) (by omega) combined.le
        combined.joins
      work := fun c d mem => by
        obtain ⟨hc, hd⟩ := sound.work c d (front ▸ List.mem_cons_of_mem _ mem)
        exact ⟨Nat.le_trans hc le, Nat.le_trans hd le⟩
      pending := sound.pop front MergeMemo.find?_record_self fun _ _ done =>
        MergeMemo.find?_record_of_isSome done }

theorem combined_of_same (inRange : g.InRange) (le : a ≤ g.nodes.size)
    (same : g.same a b = true) : g.Combined trusted a b a g where
  grows := .refl g
  inRange := inRange
  le := le
  joins _ := ((same_iff inRange).mp same).joins

/-- The pair in front has a result when its callers have. -/
theorem Merging.Sound.combine {s : Merging} {x y : Nat} {rest : List (Nat × Nat)}
    (sound : s.Sound trusted g a b) (front : s.work = (x, y) :: rest)
    (ready : s.missing x y = []) :
    ∃ n h, s.graph.combine s.memo.find? x y = .ok (n, h) ∧
      s.graph.Combined trusted x y n h := by
  obtain ⟨hx, hy⟩ := sound.work x y (front ▸ List.mem_cons_self)
  refine combine_spec sound.inRange hx hy fun c d mem => ?_
  obtain ⟨m, found⟩ := Merging.exists_result ready mem
  exact ⟨m, found, sound.memo.find? found⟩

/-- A round of a merge keeps what holds. -/
theorem Merging.Sound.next {s t : Merging} (sound : s.Sound trusted g a b)
    (round : mergeRound s = .next t) : t.Sound trusted g a b := by
  cases Merging.took_of_round round with
  | known front found =>
      exact
        { sound with
          work := fun c d mem => sound.work c d (front ▸ List.mem_cons_of_mem _ mem)
          pending := sound.pop front found fun _ _ done => done }
  | same front _ same =>
      have here := sound.work _ _ (front ▸ List.mem_cons_self)
      exact sound.record front (combined_of_same sound.inRange here.1 same)
  | combined front _ ready result =>
      obtain ⟨n, h, result', combined⟩ := sound.combine front ready
      rw [result] at result'
      cases result'
      exact sound.record front combined
  | @planned x y rest front _ _ =>
      have here := sound.work x y (front ▸ List.mem_cons_self)
      refine { sound with work := fun c d mem => ?_, pending := ?_ }
      · rcases List.mem_append.mp mem with mem | mem
        · obtain ⟨r, hc, hd⟩ := mem_sharedReturns (List.mem_of_mem_filter (List.mem_reverse.mp mem))
          exact ⟨caller_le here.1 hc rfl, caller_le here.2 hd rfl⟩
        · exact sound.work c d mem
      · exact sound.pending.imp_right fun mem => List.mem_append_right _ mem

/-- When a merge is over, the two nodes have a result. -/
theorem Merging.Sound.done {s : Merging} {r : Except StackError (StackGraph × MergeMemo)}
    (sound : s.Sound trusted g a b) (round : mergeRound s = .done r) :
    r = .ok (s.graph, s.memo) ∧ (s.memo.find? a b).isSome = true := by
  rcases Merging.round_done round with ⟨idle, rfl⟩ | ⟨x, y, rest, e, front, ready, result, rfl⟩
  · refine ⟨rfl, sound.pending.resolve_right ?_⟩
    rw [idle]
    exact List.not_mem_nil
  · obtain ⟨n, h, result', -⟩ := sound.combine front ready
    rw [result] at result'
    cases result'

/-- The loop of a merge ends with a result for the two nodes. -/
theorem merge_run {memo : MergeMemo} (inRange : g.InRange) (sound : memo.Sound trusted g)
    (ha : a ≤ g.nodes.size) (hb : b ≤ g.nodes.size) :
    ∃ h memo', Loop.run mergeRound { graph := g, memo, work := [(a, b)] } (merge_ends g memo a b) =
      .ok (h, memo') ∧ memo'.Sound trusted h ∧
        ∃ n, memo'.find? a b = some n ∧ g.Combined trusted a b n h := by
  have keeps : ∀ s t, s.Sound trusted g a b → mergeRound s = .next t → t.Sound trusted g a b :=
    fun _ _ sound round => sound.next round
  have last : ∀ s r, s.Sound trusted g a b → mergeRound s = .done r →
      ∃ h memo', r = .ok (h, memo') ∧ memo'.Sound trusted h ∧
        ∃ n, memo'.find? a b = some n ∧ g.Combined trusted a b n h := by
    intro s r sound round
    obtain ⟨rfl, found⟩ := sound.done round
    obtain ⟨n, found⟩ := Option.isSome_iff_exists.mp found
    obtain ⟨le, joins⟩ := sound.memo.find? found
    exact ⟨_, _, rfl, sound.memo, n, found, sound.grows, sound.inRange, le, joins⟩
  exact Loop.run_invariant keeps last (merge_ends g memo a b)
    (Merging.sound_start inRange sound ha hb)

/-- A merge ends with a node that is trusted to be the union of the stacks of two nodes. -/
theorem merge_spec {memo : MergeMemo} {a b : Option Nat} (inRange : g.InRange)
    (sound : memo.Sound trusted g) :
    ∃ m, g.merge memo a b = .ok m ∧ m.memo.Sound trusted m.graph ∧
      g.Combined trusted (g.resolveRef a) (g.resolveRef b) m.node m.graph := by
  have ha := g.resolveRef_le a
  have hb := g.resolveRef_le b
  unfold merge
  simp only
  split
  · next same => exact ⟨_, rfl, sound, combined_of_same inRange ha same⟩
  · split
    · next n found =>
        obtain ⟨le, joins⟩ := sound.find? found
        exact ⟨_, rfl, sound, .refl g, inRange, le, joins⟩
    · obtain ⟨h, memo', run, sound', n, found, combined⟩ := merge_run inRange sound ha hb
      rw [run]
      simp only [found]
      exact ⟨_, rfl, sound', combined⟩

/-- Nodes without different callers below equal return states are merged in one round. -/
theorem merge_of_ready (apart : g.same a b = false)
    (ready : sharedReturns (g.entries a) (g.entries b) = [])
    (combined : g.combine ({} : MergeMemo).find? a b = .ok (n, h))
    (ha : a ≤ g.nodes.size) (hb : b ≤ g.nodes.size) :
    g.merge {} (some a) (some b) = .ok ⟨n, h, ({} : MergeMemo).record a b n⟩ := by
  have nameA : g.resolveRef (some a) = a := resolve_eq ha
  have nameB : g.resolveRef (some b) = b := resolve_eq hb
  have new : (({} : MergeMemo).find? a b) = none := by simp [MergeMemo.find?]
  have made : mergeRound { graph := g, memo := {}, work := [(a, b)] } =
      .next { graph := h, memo := ({} : MergeMemo).record a b n, work := [] } := by
    simp [mergeRound, new, apart, ready, combined]
  have recorded : (({} : MergeMemo).record a b n).find? a b = some n := by
    rw [MergeMemo.find?, MergeMemo.record, Std.TreeMap.getElem?_insertIfNew, if_pos (by simp)]
  have run : Loop.run mergeRound { graph := g, memo := {}, work := [(a, b)] }
      (merge_ends g {} a b) = .ok (h, ({} : MergeMemo).record a b n) :=
    (Loop.run_next _ made).trans (Loop.run_done _ rfl)
  unfold StackGraph.merge
  simp only [nameA, nameB, apart, new, run, recorded]
  rfl

end StackGraph

end GrammarNet
