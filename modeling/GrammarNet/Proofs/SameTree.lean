import GrammarNet.StackGraph.Same
import GrammarNet.StackGraph.Stacks
import Mathlib.Data.List.Forall2

/-!
Nodes that unfold to the same tree.

Two nodes are the same when their entries agree, one by one, and so do the callers below the
entries (`SameTree`). A node is determined by its stacks: nodes with the same stacks unfold to the
same tree, however their callers are shared (`sameTree_iff_sameStacks`). The comparison decides
this (`same_iff`). It looks at each pair of nodes once, so it is sound only because a pair that is
skipped is compared elsewhere, and the callers are older than the nodes.

`Grows` says that a graph keeps the nodes of another. Nodes that are kept keep their stacks.
-/

namespace GrammarNet

namespace StackEntry

/-- Entries of the same kind, with the same return state, whose callers are related. -/
inductive Matches (R : Nat → Nat → Prop) : StackEntry → StackEntry → Prop
  | ended : Matches R .ended .ended
  | call {r : Int} {c d : Nat} : R c d → Matches R (.call r c) (.call r d)

section Matches

variable {R S : Nat → Nat → Prop} {e e' f f' : StackEntry} {es fs : List StackEntry}

theorem Matches.imp (wider : ∀ c d, R c d → S c d) (h : Matches R e f) : Matches S e f := by
  cases h with
  | ended => exact .ended
  | call related => exact .call (wider _ _ related)

theorem Matches.symm (h : Matches R e f) : Matches (fun d c => R c d) f e := by
  cases h with
  | ended => exact .ended
  | call related => exact .call related

/-- Entries that match with the same callers are the same. -/
theorem eq_of_matches_eq (all : List.Forall₂ (Matches Eq) es fs) : es = fs := by
  induction all with
  | nil => rfl
  | cons first _ ih =>
      cases first with
      | ended => rw [ih]
      | call below => rw [below, ih]

/-- The order of entries does not depend on their callers. -/
theorem Matches.before_eq (h : Matches R e f) (h' : Matches S e' f') :
    e.before e' = f.before f' := by
  cases h <;> cases h' <;> rfl

theorem before_irrefl (e : StackEntry) : e.before e = false := by
  cases e <;> simp [before]

theorem before_asymm (h : e.before f = true) : f.before e = false := by
  cases e <;> cases f <;> simp_all [before]
  omega

/-- In an ascending list, each return state has one caller. -/
theorem caller_unique {r : Int} {c d : Nat} (asc : es.Pairwise fun a b => a.before b = true)
    (hc : .call r c ∈ es) (hd : .call r d ∈ es) : c = d := by
  induction es with
  | nil => cases hc
  | cons e es ih =>
      obtain ⟨first, asc⟩ := List.pairwise_cons.mp asc
      have apart : ∀ d', .call r d' ∈ es → e ≠ .call r c → e ≠ .call r d → c = d := by
        intro _ _ hec hed
        exact ih asc ((List.mem_cons.mp hc).resolve_left (Ne.symm hec))
          ((List.mem_cons.mp hd).resolve_left (Ne.symm hed))
      rcases List.mem_cons.mp hc with rfl | hc'
      · rcases List.mem_cons.mp hd with same | hd'
        · cases same
          rfl
        · have := first _ hd'
          simp [before] at this
      · rcases List.mem_cons.mp hd with rfl | hd'
        · have := first _ hc'
          simp [before] at this
        · exact ih asc hc' hd'

/-- Ascending lists match entry by entry when each entry of one matches an entry of the other. -/
theorem forall₂_matches (ascL : es.Pairwise fun a b => a.before b = true)
    (ascR : fs.Pairwise fun a b => a.before b = true)
    (left : ∀ e ∈ es, ∃ f ∈ fs, Matches R e f) (right : ∀ f ∈ fs, ∃ e ∈ es, Matches R e f) :
    List.Forall₂ (Matches R) es fs := by
  induction es generalizing fs with
  | nil =>
      cases fs with
      | nil => exact .nil
      | cons f fs =>
          obtain ⟨e, mem, -⟩ := right f List.mem_cons_self
          cases mem
  | cons e es ih =>
      cases fs with
      | nil =>
          obtain ⟨f, mem, -⟩ := left e List.mem_cons_self
          cases mem
      | cons f fs =>
          obtain ⟨firstL, restL⟩ := List.pairwise_cons.mp ascL
          obtain ⟨firstR, restR⟩ := List.pairwise_cons.mp ascR
          obtain ⟨f', memF, he⟩ := left e List.mem_cons_self
          obtain ⟨e', memE, hf⟩ := right f List.mem_cons_self
          have same : e.before e' = f'.before f := he.before_eq hf
          -- A head that matches something later would come both before and after the other head.
          obtain rfl : f' = f := by
            refine (List.mem_cons.mp memF).resolve_right fun later => ?_
            have back : e'.before e = true := (hf.before_eq he).trans (firstR f' later)
            rcases List.mem_cons.mp memE with rfl | laterE
            · rw [before_irrefl] at back
              cases back
            · have ahead := firstL e' laterE
              rw [before_asymm back] at ahead
              cases ahead
          obtain rfl : e' = e := by
            refine (List.mem_cons.mp memE).resolve_right fun later => ?_
            rw [firstL e' later, before_irrefl] at same
            cases same
          refine .cons he (ih restL restR (fun a ha => ?_) fun b hb => ?_)
          · obtain ⟨b, hb, hab⟩ := left a (List.mem_cons_of_mem _ ha)
            refine ⟨b, (List.mem_cons.mp hb).resolve_left ?_, hab⟩
            rintro rfl
            have ahead := firstL a ha
            rw [he.before_eq hab, before_irrefl] at ahead
            cases ahead
          · obtain ⟨a, ha, hab⟩ := right b (List.mem_cons_of_mem _ hb)
            refine ⟨a, (List.mem_cons.mp ha).resolve_left ?_, hab⟩
            rintro rfl
            have ahead := firstR b hb
            rw [← he.before_eq hab, before_irrefl] at ahead
            cases ahead

/-- Calls return to states below the mark for the end. -/
def BelowMark (entries : List StackEntry) : Prop :=
  ∀ r c, .call r c ∈ entries → r < endMark

theorem BelowMark.tail (below : BelowMark (e :: es)) : BelowMark es :=
  fun r c mem => below r c (List.mem_cons_of_mem e mem)

theorem forall₂_matches_symm (all : List.Forall₂ (Matches R) es fs) :
    List.Forall₂ (Matches fun d c => R c d) fs es :=
  (all.imp fun _ _ => Matches.symm).flip

theorem exists_matches_of_mem (all : List.Forall₂ (Matches R) es fs) (mem : e ∈ es) :
    ∃ f ∈ fs, Matches R e f := by
  induction all with
  | nil => cases mem
  | cons first _ ih =>
      rcases List.mem_cons.mp mem with rfl | mem
      · exact ⟨_, List.mem_cons_self, first⟩
      · obtain ⟨f, mem, h⟩ := ih mem
        exact ⟨f, List.mem_cons_of_mem _ mem, h⟩

theorem exists_call_of_forall₂ {r : Int} {c : Nat} (all : List.Forall₂ (Matches R) es fs)
    (mem : .call r c ∈ es) : ∃ d, .call r d ∈ fs ∧ R c d := by
  obtain ⟨f, mem, h⟩ := exists_matches_of_mem all mem
  cases h with
  | call related => exact ⟨_, mem, related⟩

theorem ended_mem_of_forall₂ (all : List.Forall₂ (Matches R) es fs) (mem : .ended ∈ es) :
    .ended ∈ fs := by
  obtain ⟨f, mem, h⟩ := exists_matches_of_mem all mem
  cases h with
  | ended => exact mem

end Matches

end StackEntry

namespace StackGraph

open StackEntry

variable {g h : StackGraph} {a b n : Nat}

/-! ### The stacks of a list of entries -/

/-- One of the entries gives the stack. -/
def Offers (g : StackGraph) (entries : List StackEntry) : List Int → Prop
  | [] => .ended ∈ entries
  | r :: stack => ∃ c, .call r c ∈ entries ∧ g.HasStack c stack

theorem hasStack_iff_offers {stack : List Int} :
    g.HasStack n stack ↔ g.Offers (g.entries n) stack := by
  cases stack with
  | nil => exact hasStack_nil
  | cons r stack => exact hasStack_cons

/-- The nodes stand for the same stacks. -/
def SameStacks (g : StackGraph) (a b : Nat) : Prop :=
  ∀ stack, g.HasStack a stack ↔ g.HasStack b stack

theorem SameStacks.refl (g : StackGraph) (n : Nat) : g.SameStacks n n :=
  fun _ => Iff.rfl

theorem SameStacks.symm (same : g.SameStacks a b) : g.SameStacks b a :=
  fun stack => (same stack).symm

theorem SameStacks.trans {c : Nat} (same : g.SameStacks a b) (same' : g.SameStacks b c) :
    g.SameStacks a c :=
  fun stack => (same stack).trans (same' stack)

/-- Entries that match offer the same stacks when their callers have the same stacks. -/
theorem offers_congr {es fs : List StackEntry} (all : List.Forall₂ (Matches g.SameStacks) es fs)
    (stack : List Int) : g.Offers es stack ↔ g.Offers fs stack := by
  have back := forall₂_matches_symm all
  cases stack with
  | nil => exact ⟨ended_mem_of_forall₂ all, ended_mem_of_forall₂ back⟩
  | cons r stack =>
      constructor
      · rintro ⟨c, mem, has⟩
        obtain ⟨d, mem, same⟩ := exists_call_of_forall₂ all mem
        exact ⟨d, mem, (same stack).mp has⟩
      · rintro ⟨d, mem, has⟩
        obtain ⟨c, mem, same⟩ := exists_call_of_forall₂ back mem
        exact ⟨c, mem, (same stack).mpr has⟩

theorem sameStacks_of_matches
    (all : List.Forall₂ (Matches g.SameStacks) (g.entries a) (g.entries b)) : g.SameStacks a b := by
  intro stack
  rw [hasStack_iff_offers, hasStack_iff_offers, offers_congr all]

/-- Nodes with the same entries have the same stacks. -/
theorem sameStacks_of_entries (same : g.entries a = g.entries b) : g.SameStacks a b := by
  intro stack
  rw [hasStack_iff_offers, hasStack_iff_offers, same]

theorem entries_pairwise (g : StackGraph) (n : Nat) :
    (g.entries n).Pairwise fun a b => a.before b = true :=
  ascending_iff.mp (g.entries_ascending n)

/-- An entry of a node has its stacks under its return state, and no other entry has any there. -/
theorem hasStack_cons_of_mem {c : Nat} {r : Int} {stack : List Int}
    (mem : .call r c ∈ g.entries n) : g.HasStack n (r :: stack) ↔ g.HasStack c stack := by
  rw [hasStack_cons]
  constructor
  · rintro ⟨d, mem', has⟩
    rwa [caller_unique (g.entries_pairwise n) mem mem']
  · intro has
    exact ⟨c, mem, has⟩

/-! ### Nodes that unfold to the same tree -/

/-- The entries of the nodes agree one by one, and the callers below them unfold to the same
trees. -/
inductive SameTree (g : StackGraph) : Nat → Nat → Prop
  | intro {a b : Nat} :
      List.Forall₂ (Matches (SameTree g)) (g.entries a) (g.entries b) → SameTree g a b

theorem SameTree.matches (same : g.SameTree a b) :
    List.Forall₂ (Matches g.SameTree) (g.entries a) (g.entries b) := by
  cases same with
  | intro entries => exact entries

theorem SameTree.sameStacks (same : g.SameTree a b) : g.SameStacks a b := by
  intro stack
  induction stack generalizing a b with
  | nil =>
      rw [hasStack_nil, hasStack_nil]
      exact ⟨ended_mem_of_forall₂ same.matches,
        ended_mem_of_forall₂ (forall₂_matches_symm same.matches)⟩
  | cons r stack ih =>
      rw [hasStack_cons, hasStack_cons]
      constructor
      · rintro ⟨c, mem, has⟩
        obtain ⟨d, mem, below⟩ := exists_call_of_forall₂ same.matches mem
        exact ⟨d, mem, (ih below).mp has⟩
      · rintro ⟨d, mem, has⟩
        obtain ⟨c, mem, below⟩ := exists_call_of_forall₂ (forall₂_matches_symm same.matches) mem
        exact ⟨c, mem, (ih below).mpr has⟩

/-- Below an entry of one of two nodes with the same stacks, the other has an entry with the same
stacks. -/
theorem SameStacks.exists_match (same : g.SameStacks a b) {e : StackEntry} (mem : e ∈ g.entries a) :
    ∃ f ∈ g.entries b, Matches g.SameStacks e f := by
  cases e with
  | ended => exact ⟨.ended, hasStack_nil.mp ((same []).mp (hasStack_nil.mpr mem)), .ended⟩
  | call r c =>
      obtain ⟨stack, has⟩ := g.exists_hasStack c
      obtain ⟨d, mem', -⟩ := hasStack_cons.mp ((same (r :: stack)).mp (.call mem has))
      refine ⟨.call r d, mem', .call fun stack => ?_⟩
      rw [← hasStack_cons_of_mem mem, ← hasStack_cons_of_mem mem', same]

/-- The entries of nodes with the same stacks match, and so do their callers. -/
theorem SameStacks.matches {R : Nat → Nat → Prop} (same : g.SameStacks a b)
    (below : ∀ r c d, .call r c ∈ g.entries a → .call r d ∈ g.entries b → g.SameStacks c d →
      R c d) : List.Forall₂ (Matches R) (g.entries a) (g.entries b) := by
  have widen : ∀ {e f}, e ∈ g.entries a → f ∈ g.entries b → Matches g.SameStacks e f →
      Matches R e f := by
    intro e f memL memR h
    cases h with
    | ended => exact .ended
    | call same => exact .call (below _ _ _ memL memR same)
  refine forall₂_matches (g.entries_pairwise a) (g.entries_pairwise b) (fun e mem => ?_)
    fun f mem => ?_
  · obtain ⟨f, mem', h⟩ := same.exists_match mem
    exact ⟨f, mem', widen mem mem' h⟩
  · obtain ⟨e, mem', h⟩ := same.symm.exists_match mem
    exact ⟨e, mem', widen mem' mem (h.symm.imp fun _ _ => SameStacks.symm)⟩

/-- A node is determined by its stacks. -/
theorem sameTree_iff_sameStacks : g.SameTree a b ↔ g.SameStacks a b := by
  refine ⟨SameTree.sameStacks, fun same => ?_⟩
  induction a using Nat.strongRecOn generalizing b with
  | ind a ih =>
      exact .intro (same.matches fun r c d mem _ below => ih c (caller_lt mem rfl) below)

/-! ### The comparison of nodes -/

/-- The digest of a node is that of its entries. -/
theorem digest_eq (g : StackGraph) (n : Nat) :
    g.digest n = StackEntry.digest g.digest (g.entries n) := by
  have ofRoot : StackNode.rootDigest = StackEntry.digest g.digest StackNode.rootEntries :=
    digest_congr fun e mem c hc => by
      rw [StackNode.rootEntries, List.mem_singleton] at mem
      subst mem
      cases hc
  cases n with
  | zero => exact ofRoot
  | succ k =>
      by_cases inside : k < g.nodes.size
      · have stored : g.nodes[k].digest = StackEntry.digest g.digest g.nodes[k].entries :=
          (g.admitted k inside).digest_eq
        simpa [StackGraph.digest, StackNode.digestOf, entries, inside] using stored
      · simpa [StackGraph.digest, StackNode.digestOf, entries, inside] using ofRoot

/-- Entries of the same kind with the same return states have the same digest when their callers
have. -/
theorem digest_eq_of_forall₂ {f : Nat → UInt64} {es fs : List StackEntry}
    (all : List.Forall₂ (Matches fun c d => f c = f d) es fs) :
    StackEntry.digest f es = StackEntry.digest f fs := by
  have same : es.map (digestBelow f) = fs.map (digestBelow f) ∧
      es.map (·.returnState) = fs.map (·.returnState) := by
    induction all with
    | nil => exact ⟨rfl, rfl⟩
    | cons first _ ih =>
        rw [List.map_cons, List.map_cons, List.map_cons, List.map_cons, ih.1, ih.2]
        cases first with
        | ended => exact ⟨rfl, rfl⟩
        | call same => exact ⟨by simp [digestBelow, caller?, same], rfl⟩
  have words := congrArg (List.map UInt64.ofInt) same.2
  rw [List.map_map, List.map_map] at words
  rw [StackEntry.digest, StackEntry.digest, same.1]
  exact congrArg _ (congrArg _ words)

/-- Nodes with the same stacks have the same digest. -/
theorem SameStacks.digest_eq (same : g.SameStacks a b) : g.digest a = g.digest b := by
  induction a using Nat.strongRecOn generalizing b with
  | ind a ih =>
      rw [StackGraph.digest_eq, StackGraph.digest_eq g b]
      exact digest_eq_of_forall₂
        (same.matches fun r c d mem _ below => ih c (caller_lt mem rfl) below)

/-- Calls of all nodes return to states below the mark for the end. -/
def InRange (g : StackGraph) : Prop :=
  ∀ n, BelowMark (g.entries n)

theorem mem_callerPairs_cons {e f : StackEntry} {es fs : List StackEntry} {p : Nat × Nat}
    (mem : p ∈ callerPairs es fs) : p ∈ callerPairs (e :: es) (f :: fs) := by
  unfold callerPairs at mem ⊢
  rw [List.zip_cons_cons, List.filterMap_cons]
  split
  · exact mem
  · exact List.mem_cons_of_mem _ mem

/-- Entries with the same return states match, with the pairs of their callers. -/
theorem matches_callerPairs {es fs : List StackEntry} (inL : BelowMark es) (inR : BelowMark fs)
    (returns : es.map (·.returnState) = fs.map (·.returnState)) :
    List.Forall₂ (Matches fun c d => (c, d) ∈ callerPairs es fs) es fs := by
  induction es generalizing fs with
  | nil =>
      cases fs with
      | nil => exact .nil
      | cons f fs => cases returns
  | cons e es ih =>
      cases fs with
      | nil => cases returns
      | cons f fs =>
          obtain ⟨head, tail⟩ := List.cons.inj returns
          refine .cons ?_ ((ih inL.tail inR.tail tail).imp fun _ _ h =>
            h.imp fun _ _ => mem_callerPairs_cons)
          cases e with
          | ended =>
              cases f with
              | ended => exact .ended
              | call r d =>
                  have below := inR r d List.mem_cons_self
                  simp only [returnState] at head
                  omega
          | call r c =>
              cases f with
              | ended =>
                  have below := inL r c List.mem_cons_self
                  simp only [returnState] at head
                  omega
              | call s d =>
                  obtain rfl : r = s := head
                  exact .call List.mem_cons_self

theorem related_of_callerPairs {R : Nat → Nat → Prop} {es fs : List StackEntry}
    (all : List.Forall₂ (Matches R) es fs) {c d : Nat} (mem : (c, d) ∈ callerPairs es fs) :
    R c d := by
  induction all with
  | nil => cases mem
  | cons first _ ih =>
      cases first with
      | ended => exact ih mem
      | call related =>
          rcases List.mem_cons.mp mem with same | mem
          · cases same
            exact related
          · exact ih mem

/-- Nodes with the same stacks return to the same states. -/
theorem SameStacks.returns_eq (same : g.SameStacks a b) : g.returns a = g.returns b := by
  have all : List.Forall₂ (Matches fun _ _ => True) (g.entries a) (g.entries b) :=
    same.matches fun _ _ _ _ _ _ => trivial
  refine List.forall₂_eq_eq_eq ▸ List.forall₂_map_left_iff.mpr (List.forall₂_map_right_iff.mpr ?_)
  exact all.imp fun _ _ h => by cases h <;> rfl

/-- The pair needs no further comparison, or it was met already or is planned. -/
def Comparison.Settled (s : Comparison) (x y : Nat) : Prop :=
  x = y ∨ s.met.contains [x, y] = true ∨ (x, y) ∈ s.work

/-- What a comparison of two nodes knows when it goes on: the pairs below a pair that was met are
settled, and if the two nodes are the same then all planned pairs are. -/
structure Comparison.Knows (g : StackGraph) (a b : Nat) (s : Comparison) : Prop where
  begun : s.Settled a b
  closed : ∀ x y, s.met.contains [x, y] = true → g.returns x = g.returns y ∧
    ∀ c d, (c, d) ∈ callerPairs (g.entries x) (g.entries y) → s.Settled c d
  same : g.SameStacks a b → ∀ x y, (x, y) ∈ s.work → g.SameStacks x y

theorem Comparison.Settled.of_front {s : Comparison} {x y c d : Nat} {rest : List (Nat × Nat)}
    {met : Std.TreeSet (List Nat)} (more : List (Nat × Nat)) (settled : s.Settled c d)
    (front : s.work = (x, y) :: rest) (here : x = y ∨ met.contains [x, y] = true)
    (wider : ∀ k, s.met.contains k = true → met.contains k = true) :
    Comparison.Settled ⟨more ++ rest, met⟩ c d := by
  rcases settled with rfl | seen | planned
  · exact .inl rfl
  · exact .inr (.inl (wider _ seen))
  · rw [front] at planned
    rcases List.mem_cons.mp planned with same | planned
    · cases same
      exact here.imp_right .inl
    · exact .inr (.inr (List.mem_append_right _ planned))

/-- A round of a comparison keeps what is known. -/
theorem Comparison.Knows.next {s t : Comparison} (knows : s.Knows g a b)
    (round : g.compareRound s = .next t) : t.Knows g a b := by
  obtain ⟨work, met⟩ := s
  unfold compareRound at round
  split at round
  · cases round
  · next x y rest front =>
      simp only at front
      subst front
      split at round
      · next skip =>
          cases round
          have settled : ∀ {c d}, Settled ⟨(x, y) :: rest, met⟩ c d → Settled ⟨rest, met⟩ c d :=
            fun h => h.of_front [] rfl skip fun _ seen => seen
          exact
            { begun := settled knows.begun
              closed := fun c d seen =>
                ⟨(knows.closed c d seen).1, fun _ _ mem => settled ((knows.closed c d seen).2 _ _ mem)⟩
              same := fun all c d mem => knows.same all c d (List.mem_cons_of_mem _ mem) }
      · split at round
        · next agree =>
            cases round
            have settled : ∀ {c d}, Settled ⟨(x, y) :: rest, met⟩ c d →
                Settled ⟨callerPairs (g.entries x) (g.entries y) ++ rest, met.insert [x, y]⟩ c d :=
              fun h => h.of_front _ rfl (.inr Std.TreeSet.contains_insert_self) fun _ seen => by
                rw [Std.TreeSet.contains_insert, seen, Bool.or_true]
            refine
              { begun := settled knows.begun
                closed := fun c d seen => ?_
                same := fun all c d mem => ?_ }
            · rw [Std.TreeSet.contains_insert, Bool.or_eq_true] at seen
              rcases seen with here | seen
              · obtain ⟨rfl, rfl⟩ : x = c ∧ y = d := by simpa using here
                exact ⟨agree.2, fun _ _ mem => .inr (.inr (List.mem_append_left _ mem))⟩
              · exact ⟨(knows.closed c d seen).1,
                  fun _ _ mem => settled ((knows.closed c d seen).2 _ _ mem)⟩
            · rcases List.mem_append.mp mem with mem | mem
              · have here := knows.same all x y List.mem_cons_self
                exact related_of_callerPairs (here.matches fun _ _ _ _ _ below => below) mem
              · exact knows.same all c d (List.mem_cons_of_mem _ mem)
        · cases round

/-- When no pair is left, all settled pairs have the same stacks. -/
theorem Comparison.Knows.sameStacks {s : Comparison} (knows : s.Knows g a b) (inRange : g.InRange)
    (idle : s.work = []) {x y : Nat} (settled : s.Settled x y) : g.SameStacks x y := by
  induction x using Nat.strongRecOn generalizing y with
  | ind x ih =>
      rcases settled with rfl | seen | planned
      · exact .refl g x
      · obtain ⟨returns, below⟩ := knows.closed x y seen
        have all := matches_callerPairs (inRange x) (inRange y) returns
        have callers : List.Forall₂ (Matches g.SameStacks) (g.entries x) (g.entries y) :=
          all.imp fun _ _ h => h.imp fun c d mem => by
            obtain ⟨⟨e, he, hc⟩, -⟩ := mem_callerPairs mem
            exact ih c (caller_lt he hc) (below c d mem)
        exact sameStacks_of_matches callers
      · rw [idle] at planned
        cases planned

/-- The comparison tells whether two nodes have the same stacks. -/
theorem same_iff (inRange : g.InRange) : g.same a b = true ↔ g.SameStacks a b := by
  have keeps : ∀ s t, s.Knows g a b → g.compareRound s = .next t → t.Knows g a b :=
    fun _ _ knows round => knows.next round
  have last : ∀ s r, s.Knows g a b → g.compareRound s = .done r →
      (r = true ↔ g.SameStacks a b) := by
    intro s r knows round
    unfold compareRound at round
    split at round
    · next idle =>
        cases round
        exact ⟨fun _ => knows.sameStacks inRange idle knows.begun, fun _ => rfl⟩
    · next x y rest front =>
        split at round
        · cases round
        · split at round
          · cases round
          · next differ =>
              cases round
              refine ⟨fun wrong => (by cases wrong), fun all => absurd ?_ differ⟩
              have here := knows.same all x y (front ▸ List.mem_cons_self)
              exact ⟨here.digest_eq, here.returns_eq⟩
  refine Loop.run_invariant keeps last (g.compare_ends a b)
    { begun := .inr (.inr List.mem_cons_self), closed := fun x y seen => ?_, same := ?_ }
  · simp at seen
  · intro all x y mem
    cases List.mem_singleton.mp mem
    exact all

/-! ### Graphs that grow -/

/-- All nodes of the first graph are nodes of the second, with the same entries. -/
structure Grows (g h : StackGraph) : Prop where
  size_le : g.nodes.size ≤ h.nodes.size
  entries : ∀ n ≤ g.nodes.size, h.entries n = g.entries n

theorem Grows.refl (g : StackGraph) : g.Grows g :=
  ⟨Nat.le_refl _, fun _ _ => rfl⟩

theorem Grows.trans {i : StackGraph} (first : g.Grows h) (second : h.Grows i) : g.Grows i where
  size_le := Nat.le_trans first.size_le second.size_le
  entries n le := (second.entries n (Nat.le_trans le first.size_le)).trans (first.entries n le)

/-- A node that is kept keeps its stacks. -/
theorem Grows.hasStack (grows : g.Grows h) (le : n ≤ g.nodes.size) {stack : List Int} :
    h.HasStack n stack ↔ g.HasStack n stack :=
  hasStack_congr fun m below => grows.entries m (Nat.le_trans below le)

theorem Grows.sameStacks (grows : g.Grows h) (ha : a ≤ g.nodes.size) (hb : b ≤ g.nodes.size) :
    h.SameStacks a b ↔ g.SameStacks a b :=
  forall_congr' fun _ => iff_congr (grows.hasStack ha) (grows.hasStack hb)

/-- A number that is given out names its node. -/
theorem resolve_eq (le : n ≤ g.nodes.size) : g.resolve n = n :=
  if_pos le

theorem resolveRef_le (g : StackGraph) (n : Option Nat) : g.resolveRef n ≤ g.nodes.size :=
  g.resolve_le _

theorem caller_le {c : Nat} {e : StackEntry} (le : n ≤ g.nodes.size) (mem : e ∈ g.entries n)
    (hc : e.caller? = some c) : c ≤ g.nodes.size :=
  Nat.le_trans (Nat.le_of_lt (caller_lt mem hc)) le

/-- Only the root has the entry for the end alone. -/
theorem eq_root_of_entries (le : n ≤ g.nodes.size) (ended : g.entries n = StackNode.rootEntries) :
    n = root := by
  cases n with
  | zero => rfl
  | succ k =>
      have inside : k < g.nodes.size := le
      refine absurd ?_ (g.admitted k inside).ne_root
      simpa [StackGraph.entries, inside] using ended

end StackGraph

end GrammarNet
