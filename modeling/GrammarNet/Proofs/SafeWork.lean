import GrammarNet.Proofs.Wiring

/-!
Work on a network that keeps it wired.

`Build.Safe base r ns work made` is about work inside of the rule `r`. It starts in any wired network
that extends `base` and in which the states `ns` belong to `r`. Whether it succeeds or is refused, it
leaves a wired network that extends the one before, and when it succeeds, the states `made` belong
to `r` as well. There is one lemma for each way to join work and one for each operation.
-/

namespace GrammarNet

namespace Build

variable {α β : Type} {base : Network} {r : Int} {ns : List Nat}

/-- How work in a rule leaves the network. -/
structure Leaves (r : Int) (net : Network) (made : α → List Nat)
    (outcome : Except NetworkError α × Network) : Prop where
  wired : outcome.2.Wired
  grown : net.Extends outcome.2
  made : ∀ a, outcome.1 = .ok a → ∀ n ∈ made a, outcome.2.Inner r n

/-- Work in a rule keeps every network wired that extends the base and in which the given states
belong to the rule. -/
def Safe (base : Network) (r : Int) (ns : List Nat) (work : Build α) (made : α → List Nat) : Prop :=
  ∀ net, base.Extends net → net.Wired → (∀ n ∈ ns, net.Inner r n) → Leaves r net made (exec work net)

/-! ### Joining work -/

theorem Safe.pure {a : α} {made : α → List Nat} (known : ∀ n ∈ made a, n ∈ ns) :
    Safe base r ns (pure a) made := by
  intro net _ wired inner
  refine ⟨wired, .refl net, fun b hb n hn => ?_⟩
  cases hb
  exact inner n (known n hn)

theorem Safe.throw {e : NetworkError} {made : α → List Nat} :
    Safe base r ns (throw e : Build α) made := by
  intro net _ wired _
  exact ⟨wired, .refl net, fun b hb => nomatch hb⟩

/-- What comes after some work may rely on the network that the work leaves. -/
theorem Safe.step {work : Build α} {next : α → Build β} {made : β → List Nat}
    (first : ∀ net, base.Extends net → net.Wired → (∀ n ∈ ns, net.Inner r n) →
      (exec work net).2.Wired ∧ net.Extends (exec work net).2 ∧
        ∀ a, (exec work net).1 = .ok a → Safe (exec work net).2 r ns (next a) made) :
    Safe base r ns (work >>= next) made := by
  intro net grown wired inner
  have before := first net grown wired inner
  rw [exec_bind]
  generalize exec work net = outcome at before
  obtain ⟨answer, net'⟩ := outcome
  obtain ⟨wired', grown', rest⟩ := before
  cases answer with
  | error e => exact ⟨wired', grown', fun b hb => nomatch hb⟩
  | ok a =>
      have after := rest a rfl net' (.refl net') wired' fun n hn => (inner n hn).mono grown'
      exact ⟨after.wired, grown'.trans after.grown, after.made⟩

theorem Safe.bind {work : Build α} {next : α → Build β} {mid : α → List Nat} {made : β → List Nat}
    (first : Safe base r ns work mid) (rest : ∀ a, Safe base r (mid a ++ ns) (next a) made) :
    Safe base r ns (work >>= next) made := by
  apply Safe.step
  intro net grown wired inner
  have before := first net grown wired inner
  refine ⟨before.wired, before.grown, fun a ok net' grown' wired' inner' => ?_⟩
  refine rest a net' ((grown.trans before.grown).trans grown') wired' fun n hn => ?_
  rcases List.mem_append.mp hn with new | old
  · exact (before.made a ok n new).mono grown'
  · exact inner' n old

/-- What is looked up holds of the network from then on. -/
theorem Safe.lookup {find : Network → Except NetworkError α} {next : α → Build β}
    {made : β → List Nat}
    (rest : ∀ net a, base.Extends net → net.Wired → (∀ n ∈ ns, net.Inner r n) → find net = .ok a →
      Safe net r ns (next a) made) : Safe base r ns (lookup find >>= next) made := by
  apply Safe.step
  intro net grown wired inner
  rw [exec_lookup]
  exact ⟨wired, .refl net, fun a ok => rest net a grown wired inner ok⟩

/-- Work that makes no state leaves what is known as it is. -/
theorem Safe.next {work : Build α} {rest : Build β} {made : β → List Nat}
    (first : Safe base r ns work fun _ => []) (second : Safe base r ns rest made) :
    Safe base r ns (work >>= fun _ => rest) made :=
  .bind first fun _ => second

/-! ### Operations on states -/

theorem Safe.createState {kind : StateKind} (inside : kind ≠ .tokenStart ∧ kind ≠ .ruleStop) :
    Safe base r ns (createState kind r) fun n => [n] := by
  intro net _ wired _
  refine ⟨wired.pushState inside.2, net.extends_pushState kind r, ?_⟩
  intro a ok n hn
  cases ok
  obtain rfl := List.mem_singleton.mp hn
  exact ⟨_, net.get?_pushState_self kind r, rfl, inside⟩

/-- A new state belongs to the rule from then on. -/
theorem Safe.newState {kind : StateKind} {next : Nat → Build β} {made : β → List Nat}
    (inside : kind ≠ .tokenStart ∧ kind ≠ .ruleStop)
    (rest : ∀ n, Safe base r (n :: ns) (next n) made) :
    Safe base r ns (Build.createState kind r >>= next) made :=
  .bind (.createState inside) rest

/-- An edge is added that its source may have. -/
theorem Safe.addTransition {source : Nat} {t : Transition}
    (admitted : ∀ net, base.Extends net → (∀ n ∈ ns, net.Inner r n) →
      ∃ s, net.get? source = some s ∧ net.Admits s t) :
    Safe base r ns (addTransition source t) fun _ => [] := by
  intro net grown wired inner
  obtain ⟨s, hs, admits⟩ := admitted net grown inner
  exact ⟨wired.addTransition hs admits, net.extends_addTransition source t, fun _ _ _ hn => nomatch hn⟩

theorem admits_of_inner {net : Network} {source : Nat} {t : Transition} (inner : net.Inner r source)
    (stays : net.StaysIn r t) : ∃ s, net.get? source = some s ∧ net.Admits s t := by
  obtain ⟨s, hs, rfl, entry, stop⟩ := inner
  exact ⟨s, hs, (Network.admits_iff_staysIn stop entry).mpr stays⟩

theorem staysIn_of_plain {net : Network} {t : Transition} (plain : t.label.follow? = none)
    (target : net.OfRule r t.target) : net.StaysIn r t := by
  unfold Network.StaysIn
  split
  · next label =>
      rw [label] at plain
      cases plain
  · exact target

/-- An edge inside of the rule. -/
theorem Safe.edge {source target : Nat} {label : Label} (here : source ∈ ns) (there : target ∈ ns)
    (plain : label.follow? = none) :
    Safe base r ns (Build.addTransition source ⟨target, label⟩) fun _ => [] := by
  apply Safe.addTransition
  intro net _ inner
  exact admits_of_inner (inner source here) (staysIn_of_plain plain (inner target there).ofRule)

theorem Safe.connect {source target : Nat} (here : source ∈ ns) (there : target ∈ ns) :
    Safe base r ns (connect source target) fun _ => [] :=
  Safe.edge here there rfl

/-- Changes of the network that edges do not depend on. -/
theorem Safe.modify {f : Network → Network} (alike : ∀ net : Network, net.Alike (f net)) :
    Safe base r ns (modify f) fun _ => [] := by
  intro net _ wired _
  exact ⟨wired.alike (alike net), (alike net).extends, fun _ _ _ hn => nomatch hn⟩

theorem Safe.defineDecision {n : Option Nat} :
    Safe base r ns (defineDecision n) fun _ => [] := by
  apply Safe.lookup
  rintro net ⟨d, m⟩ - - - -
  refine .bind (.modify fun net => ?_) fun _ => .pure (by simp)
  have marked : net.Alike (net.modifyState m fun s => { s with decision := some d }) :=
    net.alike_modifyState m fun _ => rfl
  exact
    { states := marked.states
      rules := rfl }

end Build

end GrammarNet
