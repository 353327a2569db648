import GrammarNet.Proofs.WalkReach
import GrammarNet.Lookahead.Query

/-!
Networks that are closed rule by rule, and what a lookahead finds in them.

In a rule-closed network only calls lead out of a rule, and only into the start of another. The
entries of lexer modes stand outside of the rules: they lead to starts of rules, and no edge leads
to them. Such a network may still let a call go on at an entry of a mode. There, the walk leaves the
rule of the entry with the call of another rule on top, and does not know any more which rules are
being run. `NoEntryResumed` excludes it.

* `reach_housed`: in a position with calls on its stack, the state belongs to the rule called last,
  and so on down the stack.
* `look_spec`: a lookahead has an answer, namely the symbols emitted in the positions reached.
-/

namespace GrammarNet

/-- The entry at a number is one of the numbered entries. -/
theorem mem_zipIdx_of_entryAt? {α : Type} {entries : Array α} {r : Int} {a : α}
    (entry : entryAt? entries r = some a) : ∃ i : Nat, r = i ∧ (a, i) ∈ entries.toList.zipIdx := by
  unfold entryAt? at entry
  split at entry
  · cases entry
  · next nonneg =>
      refine ⟨r.toNat, (Int.toNat_of_nonneg (by omega)).symm, ?_⟩
      rw [List.mem_zipIdx_iff_getElem?, Array.getElem?_toList]
      exact entry

namespace Network

/-- All states of the network satisfy the property. -/
def All (net : Network) (P : Nat → State → Prop) : Prop :=
  ∀ n s, net.get? n = some s → P n s

theorem all_iff {net : Network} {P : Nat → State → Prop} :
    net.All P ↔ ∀ n < net.states.size, ∀ s, net.get? n = some s → P n s :=
  ⟨fun all n _ s hs => all n s hs, fun all n s hs => all n (Lookahead.lt_size_of_get? hs) s hs⟩

instance (net : Network) (P : Nat → State → Prop) [∀ n s, Decidable (P n s)] :
    Decidable (net.All P) :=
  let check : ∀ n, Decidable (∀ s, net.get? n = some s → P n s) := fun n =>
    match h : net.get? n with
    | none => isTrue (fun _ hs => by cases hs)
    | some s => decidable_of_iff (P n s) (by simp)
  decidable_of_iff _ all_iff.symm

/-- The rule that a state belongs to. -/
def ruleAt? (net : Network) (n : Nat) : Option Int :=
  (net.get? n).map (·.rule)

/-- The kind of a state. -/
def kindAt? (net : Network) (n : Nat) : Option StateKind :=
  (net.get? n).map (·.kind)

/-- The start of the rule with a number. -/
def startOf? (net : Network) (r : Int) : Option Nat :=
  (entryAt? net.rules r).map (·.start)

/-- The edge of a state stays in the rule, or calls a rule at its start and goes on in the rule of
the state. The start of a rule carries its number. -/
def Keeps (net : Network) (s : State) (t : Transition) : Prop :=
  match t.label with
  | .call follow rule _ =>
      net.startOf? rule = some t.target ∧ net.kindAt? t.target = some .ruleStart ∧
        net.ruleAt? t.target = some rule ∧ net.ruleAt? follow = some s.rule
  | _ => net.ruleAt? t.target = some s.rule

instance (net : Network) (s : State) (t : Transition) : Decidable (net.Keeps s t) := by
  unfold Keeps
  split <;> infer_instance

/-- Only calls lead out of a rule, and entries of modes stand outside of the rules. -/
structure RuleClosed (net : Network) : Prop where
  /-- Edges lead to states of the network, and calls go on at states of it. -/
  live : net.All fun _ s => ∀ t ∈ s.transitions,
    (net.get? t.target).isSome ∧ ∀ follow ∈ t.label.follow?.toList, (net.get? follow).isSome
  /-- The edges inside of the rules. -/
  keeps : net.All fun _ s => s.kind ≠ .ruleStop → s.kind ≠ .tokenStart →
    ∀ t ∈ s.transitions, net.Keeps s t
  /-- The rule of a stop state is registered. -/
  stops : net.All fun _ s => s.kind = .ruleStop → (net.startOf? s.rule).isSome
  /-- An entry of a mode leads to starts of rules, asking nothing. -/
  entries : net.All fun _ s => s.kind = .tokenStart →
    ∀ t ∈ s.transitions, t.label = .epsilon ∧ ∃ rule ∈ net.rules.toList, rule.start = t.target
  /-- No edge has an entry of a mode as its target. -/
  untargeted : net.All fun _ s => ∀ t ∈ s.transitions, net.kindAt? t.target ≠ some .tokenStart

set_option synthInstance.maxSize 256 in
instance (net : Network) : Decidable net.RuleClosed :=
  decidable_of_iff
    ((net.All fun _ s => ∀ t ∈ s.transitions,
        (net.get? t.target).isSome ∧ ∀ follow ∈ t.label.follow?.toList, (net.get? follow).isSome) ∧
      (net.All fun _ s => s.kind ≠ .ruleStop → s.kind ≠ .tokenStart →
        ∀ t ∈ s.transitions, net.Keeps s t) ∧
      (net.All fun _ s => s.kind = .ruleStop → (net.startOf? s.rule).isSome) ∧
      (net.All fun _ s => s.kind = .tokenStart →
        ∀ t ∈ s.transitions, t.label = .epsilon ∧ ∃ rule ∈ net.rules.toList, rule.start = t.target) ∧
      (net.All fun _ s => ∀ t ∈ s.transitions, net.kindAt? t.target ≠ some .tokenStart))
    ⟨fun ⟨live, keeps, stops, entries, untargeted⟩ => ⟨live, keeps, stops, entries, untargeted⟩,
      fun closed => ⟨closed.live, closed.keeps, closed.stops, closed.entries, closed.untargeted⟩⟩

/-- No call goes on at an entry of a mode. -/
def NoEntryResumed (net : Network) : Prop :=
  net.All fun _ s => ∀ t ∈ s.transitions, ∀ follow ∈ t.label.follow?.toList,
    net.kindAt? follow ≠ some .tokenStart

instance (net : Network) : Decidable net.NoEntryResumed :=
  inferInstanceAs (Decidable (net.All _))

/-- Rule `1` calls rule `2` and goes on at an entry of a mode, state `10`, from where it gets to the
end of rule `2` instead of its own. Rule `0` calls rule `1`, and after its own call, made in state
`7`, rule `1` is called once more. -/
def resumedEntry : Network where
  grammar := .parser
  maxSymbol := 10
  rules := #[⟨0, 1⟩, ⟨2, 3⟩, ⟨4, 5⟩]
  states := #[
    some { number := 0, kind := .ruleStart, rule := 0, transitions := [⟨2, .call 6 1 0⟩] },
    some { number := 1, kind := .ruleStop, rule := 0 },
    some { number := 2, kind := .ruleStart, rule := 1, transitions := [⟨4, .call 10 2 0⟩] },
    some { number := 3, kind := .ruleStop, rule := 1 },
    some { number := 4, kind := .ruleStart, rule := 2, transitions := [⟨5, .epsilon⟩] },
    some { number := 5, kind := .ruleStop, rule := 2 },
    some { number := 6, kind := .basic, rule := 0, transitions := [⟨1, .epsilon⟩] },
    some { number := 7, kind := .basic, rule := 0, transitions := [⟨0, .call 8 0 0⟩] },
    some { number := 8, kind := .basic, rule := 0, transitions := [⟨2, .call 9 1 0⟩] },
    some
      { number := 9, kind := .basic, rule := 0, transitions := [⟨1, .atom 7⟩, ⟨1, .epsilon⟩] },
    some { number := 10, kind := .tokenStart, rule := 1, transitions := [⟨4, .epsilon⟩] }]

theorem resumedEntry_ruleClosed : resumedEntry.RuleClosed := by
  decide

/-- Rule `0` is a sum of symbols `6` with symbols `5` between them, called by itself on the left.
Rule `1` calls it. -/
def leftSum : Network where
  grammar := .parser
  maxSymbol := 10
  rules := #[⟨0, 1⟩, ⟨2, 3⟩]
  states := #[
    some
      { number := 0, kind := .ruleStart, rule := 0
        transitions := [⟨4, .epsilon⟩, ⟨6, .epsilon⟩] },
    some { number := 1, kind := .ruleStop, rule := 0 },
    some { number := 2, kind := .ruleStart, rule := 1, transitions := [⟨7, .epsilon⟩] },
    some { number := 3, kind := .ruleStop, rule := 1 },
    some { number := 4, kind := .basic, rule := 0, transitions := [⟨0, .call 5 0 0⟩] },
    some { number := 5, kind := .basic, rule := 0, transitions := [⟨6, .atom 5⟩] },
    some { number := 6, kind := .basic, rule := 0, transitions := [⟨1, .atom 6⟩] },
    some { number := 7, kind := .basic, rule := 1, transitions := [⟨0, .call 8 0 0⟩] },
    some { number := 8, kind := .basic, rule := 1, transitions := [⟨3, .epsilon⟩] }]

theorem leftSum_ruleClosed : leftSum.RuleClosed := by
  decide

theorem leftSum_noEntryResumed : leftSum.NoEntryResumed := by
  decide

/-! ### Edges of a rule-closed network -/

section RuleClosed

variable {net : Network} {n : Nat} {s : State} {t : Transition}

theorem get?_of_ruleAt? {r : Int} (h : net.ruleAt? n = some r) :
    ∃ s, net.get? n = some s ∧ s.rule = r :=
  Option.map_eq_some_iff.mp h

/-- A call is made by a state of a rule. -/
theorem RuleClosed.keeps_of_call (closed : net.RuleClosed) (hs : net.get? n = some s)
    (kind : s.kind ≠ .ruleStop) (ht : t ∈ s.transitions) {follow : Nat} {rule level : Int}
    (label : t.label = .call follow rule level) : s.kind ≠ .tokenStart ∧ net.Keeps s t := by
  by_cases entry : s.kind = .tokenStart
  · obtain ⟨plain, -⟩ := closed.entries n s hs entry t ht
    rw [plain] at label
    cases label
  · exact ⟨entry, closed.keeps n s hs kind entry t ht⟩

/-- What a call is in a rule-closed network. -/
theorem RuleClosed.call (closed : net.RuleClosed) (hs : net.get? n = some s)
    (kind : s.kind ≠ .ruleStop) (ht : t ∈ s.transitions) {follow : Nat} {rule level : Int}
    (label : t.label = .call follow rule level) :
    net.startOf? rule = some t.target ∧ net.kindAt? t.target = some .ruleStart ∧
      net.ruleAt? t.target = some rule ∧ net.ruleAt? follow = some s.rule := by
  obtain ⟨-, keeps⟩ := closed.keeps_of_call hs kind ht label
  rw [Keeps, label] at keeps
  exact keeps

/-- Any other edge inside of a rule. -/
theorem RuleClosed.stay (closed : net.RuleClosed) (hs : net.get? n = some s)
    (kind : s.kind ≠ .ruleStop) (inner : s.kind ≠ .tokenStart) (ht : t ∈ s.transitions)
    (plain : t.label.follow? = none) : net.ruleAt? t.target = some s.rule := by
  have keeps := closed.keeps n s hs kind inner t ht
  unfold Keeps at keeps
  cases hl : t.label with
  | call follow rule level =>
      rw [hl] at plain
      cases plain
  | _ => simpa only [hl] using keeps

end RuleClosed

end Network

namespace StackGraph

/-- The node `c` is a caller below an entry of the node `n`. -/
def Calls (g : StackGraph) (n c : Nat) : Prop :=
  ∃ r, .call r c ∈ g.entries n

/-- All return states of the node and of the nodes below it are states of the network. -/
def ReturnsLive (g : StackGraph) (net : Network) (n : Nat) : Prop :=
  ∀ m, Relation.ReflTransGen g.Calls n m → ∀ r c, .call r c ∈ g.entries m → net.state? r ≠ none

theorem returnsLive_of_entries {g : StackGraph} {net : Network} {n : Nat}
    (live : ∀ r c, .call r c ∈ g.entries n → net.state? r ≠ none ∧ g.ReturnsLive net c) :
    g.ReturnsLive net n := by
  intro m below r c mem
  rcases Relation.ReflTransGen.cases_head below with rfl | ⟨d, ⟨r', mem'⟩, below'⟩
  · exact (live r c mem).1
  · exact (live r' d mem').2 m below' r c mem

/-- The empty stack returns nowhere. -/
theorem call_notMem_root {g : StackGraph} {r : Int} {c : Nat} : .call r c ∉ g.entries root := by
  intro mem
  change _ ∈ StackNode.rootEntries at mem
  simp [StackNode.rootEntries] at mem

theorem returnsLive_root (g : StackGraph) (net : Network) : g.ReturnsLive net root := by
  apply returnsLive_of_entries
  intro r c mem
  exact absurd mem call_notMem_root

/-- Node `1` stands for the call of the sum in `Network.leftSum`. -/
def callOfSum : StackGraph :=
  (empty.single none 8).2

theorem callOfSum_returnsLive {net : Network} (there : net.state? 8 ≠ none) :
    callOfSum.ReturnsLive net 1 := by
  apply returnsLive_of_entries
  intro r c mem
  obtain ⟨rfl, rfl⟩ : r = 8 ∧ c = root := by
    change StackEntry.call r c ∈ [StackEntry.call 8 root] at mem
    simpa using mem
  exact ⟨there, returnsLive_root _ _⟩

theorem callOfSum_live : callOfSum.ReturnsLive .leftSum 1 :=
  callOfSum_returnsLive (by decide)

end StackGraph

namespace Lookahead

variable {ground : Ground}

/-- The state belongs to the rule called last, the state at which that call goes on to the rule
called before it, and so on. -/
def Housed (net : Network) : Nat → List Frame → Prop
  | _, [] => True
  | n, f :: calls =>
      (∃ s, net.get? n = some s ∧ s.rule = f.rule ∧ s.kind ≠ .tokenStart) ∧
        Housed net f.returnTo calls

theorem Moves.housed {p q : Position} (closed : ground.net.RuleClosed)
    (unresumed : ground.net.NoEntryResumed) (move : Moves ground p q)
    (housed : Housed ground.net p.state p.stack.calls) :
    Housed ground.net q.state q.stack.calls := by
  cases move with
  | @cross n i s t stack _ hs kind _ ht crosses =>
      have mem : t ∈ s.transitions := List.mem_of_getElem? ht
      cases crosses with
      | pass pass =>
          obtain ⟨calls, base⟩ := stack
          cases calls with
          | nil => trivial
          | cons f calls =>
              obtain ⟨⟨s', hs', rule, inner⟩, below⟩ := housed
              obtain rfl : s = s' := Option.some.inj (hs.symm.trans hs')
              have plain : t.label.follow? = none := by
                cases hl : t.label <;> simp_all [LookaheadOptions.passes, Label.isSilent, Label.follow?]
              obtain ⟨u, hu, ru⟩ := Network.get?_of_ruleAt? (closed.stay hs kind inner mem plain)
              refine ⟨⟨u, hu, ru.trans rule, fun entry => ?_⟩, below⟩
              exact closed.untargeted n s hs t mem (by simp [Network.kindAt?, hu, entry])
      | @call returnTo rule precedence label idle =>
          obtain ⟨-, kindT, ruleT, ruleF⟩ := closed.call hs kind mem label
          obtain ⟨u, hu, ru⟩ := Network.get?_of_ruleAt? ruleT
          have start : u.kind = .ruleStart := by simpa [Network.kindAt?, hu] using kindT
          refine ⟨⟨u, hu, ru, by simp [start]⟩, ?_⟩
          obtain ⟨calls, base⟩ := stack
          cases calls with
          | nil => trivial
          | cons f calls =>
              obtain ⟨⟨s', hs', ruleS, -⟩, below⟩ := housed
              obtain rfl : s = s' := Option.some.inj (hs.symm.trans hs')
              obtain ⟨v, hv, rv⟩ := Network.get?_of_ruleAt? ruleF
              refine ⟨⟨v, hv, rv.trans ruleS, fun entry => ?_⟩, below⟩
              exact unresumed n s hs t mem returnTo (by simp [label, Label.follow?])
                (by simp [Network.kindAt?, hv, entry])
  | back _ _ _ mem =>
      cases CallStack.resume_mem_returns_iff.mp mem with
      | call => exact housed.2
      | drop _ => trivial

/-- In a position reached from an empty stack, the state belongs to the rule called last. -/
theorem reach_housed {n base : Nat} {p : Position} (closed : ground.net.RuleClosed)
    (unresumed : ground.net.NoEntryResumed) (reach : Reach ground ⟨n, [], base⟩ p) :
    Housed ground.net p.state p.stack.calls := by
  induction reach with
  | refl => trivial
  | tail _ move ih => exact move.housed closed unresumed ih

theorem aligned_of_ruleClosed {n base : Nat} (closed : ground.net.RuleClosed)
    (unresumed : ground.net.NoEntryResumed) : Aligned ground ⟨n, [], base⟩ := by
  intro m s f calls base reach hs kind
  obtain ⟨⟨s', hs', rule, -⟩, -⟩ := reach_housed closed unresumed reach
  obtain rfl : s = s' := Option.some.inj (hs.symm.trans hs')
  exact rule

/-- Leaving a rule, a stack stays on the node it stands on or drops to one below it. -/
theorem pops_below {g : StackGraph} {stack rest : CallStack} {r : Int} {base : Nat}
    (pops : stack.Pops g r rest) (below : Relation.ReflTransGen g.Calls base stack.base) :
    Relation.ReflTransGen g.Calls base rest.base := by
  cases pops with
  | call => exact below
  | drop entry => exact below.tail ⟨_, entry⟩

/-- The nodes a walk stands on are the one it starts on and those below it. -/
theorem Reach.base_calls {p q : Position} (reach : Reach ground p q) :
    Relation.ReflTransGen ground.graph.Calls p.stack.base q.stack.base := by
  induction reach with
  | refl => exact .refl
  | tail _ move ih =>
      cases move with
      | cross _ _ _ _ crosses =>
          cases crosses with
          | pass _ => exact ih
          | call _ _ => exact ih
      | back _ _ _ mem => exact pops_below (CallStack.resume_mem_returns_iff.mp mem) ih

/-- The state to which a stack returns is there when its calls are edges of the network, and the
network goes on after a call at a state that is there. -/
theorem state?_of_pops {net : Network} {g : StackGraph} {stack rest : CallStack} {r : Int}
    {base : Nat}
    (follows : net.All fun _ s => ∀ t ∈ s.transitions, ∀ follow ∈ t.label.follow?.toList,
      (net.get? follow).isSome)
    (live : g.ReturnsLive net base) (traced : Traced net stack)
    (below : Relation.ReflTransGen g.Calls base stack.base) (pops : stack.Pops g r rest) :
    net.state? r ≠ none := by
  cases pops with
  | drop entry => exact live _ below r _ entry
  | @call f calls base' =>
      obtain ⟨target, level, edge⟩ := traced f List.mem_cons_self
      obtain ⟨s', hs', ht⟩ := Option.bind_eq_some_iff.mp edge
      have there := follows f.caller s' hs' _ (List.mem_of_getElem? ht) f.returnTo
        (by simp [Label.follow?])
      intro gone
      have gone : net.get? f.returnTo = none := by simpa [Network.state?] using gone
      rw [gone] at there
      cases there

theorem returning_of_ruleClosed {n base : Nat} (closed : ground.net.RuleClosed)
    (live : ground.graph.ReturnsLive ground.net base) : Returning ground ⟨n, [], base⟩ := by
  intro m s r stack rest reach hs kind mem
  exact state?_of_pops (fun n s hs t mem => (closed.live n s hs t mem).2) live
    (Reach.traced reach (traced_nil ground.net base)) (Reach.base_calls reach)
    (CallStack.resume_mem_returns_iff.mp mem)

/-- A lookahead in a rule-closed network has an answer: what is emitted in the positions that are
reached from the state with an empty stack above the node. -/
theorem look_spec {net : Network} {graph : StackGraph} {n : Nat} {stack : Option Nat}
    {options : LookaheadOptions} {stop : Option Nat} (closed : net.RuleClosed)
    (unresumed : net.NoEntryResumed) (live : graph.ReturnsLive net (graph.resolveRef stack)) :
    Answers { net, graph, stop, options } ⟨n, [], graph.resolveRef stack⟩
      (net.look graph (some n) stack options stop) :=
  walk_spec (aligned_of_ruleClosed closed unresumed) (returning_of_ruleClosed closed live)

end Lookahead

end GrammarNet
