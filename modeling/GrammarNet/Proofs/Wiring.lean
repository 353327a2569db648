import GrammarNet.Network.Fragment
import GrammarNet.Proofs.RuleClosed

/-!
Networks whose edges are where the operations on fragments put them.

`Network.Wired` says which edges a state may have: an end of a rule only returns, an entry of a mode
only leads to starts of rules, and any other state keeps to its rule. A network that grows keeps its
states what they are (`Network.Extends`), so an edge that is admitted once stays admitted, and it is
enough to look at each new state and each new edge when it is made.

A wired network is rule-closed, and no call goes on at an entry of a mode.
-/

namespace GrammarNet

namespace Network

/-- The states stay what they are, and the registered rules stay registered. -/
structure Extends (net net' : Network) : Prop where
  states : ∀ n s, net.get? n = some s →
    ∃ s', net'.get? n = some s' ∧ s'.number = s.number ∧ s'.kind = s.kind ∧ s'.rule = s.rule
  rules : ∀ (i : Nat) rule, net.rules[i]? = some rule → net'.rules[i]? = some rule

variable {net net' net'' : Network}

theorem Extends.refl (net : Network) : net.Extends net where
  states := fun _ s hs => ⟨s, hs, rfl, rfl, rfl⟩
  rules := fun _ _ h => h

theorem Extends.trans (first : net.Extends net') (second : net'.Extends net'') :
    net.Extends net'' where
  states := by
    intro n s hs
    obtain ⟨s', hs', number, kind, rule⟩ := first.states n s hs
    obtain ⟨s'', hs'', number', kind', rule'⟩ := second.states n s' hs'
    exact ⟨s'', hs'', number'.trans number, kind'.trans kind, rule'.trans rule⟩
  rules := fun i rule h => second.rules i rule (first.rules i rule h)

/-- The state belongs to the rule. -/
def OfRule (net : Network) (r : Int) (n : Nat) : Prop :=
  ∃ s, net.get? n = some s ∧ s.rule = r ∧ s.kind ≠ .tokenStart

/-- The state belongs to the rule and is not its end. -/
def Inner (net : Network) (r : Int) (n : Nat) : Prop :=
  ∃ s, net.get? n = some s ∧ s.rule = r ∧ s.kind ≠ .tokenStart ∧ s.kind ≠ .ruleStop

theorem Inner.ofRule {r : Int} {n : Nat} (inner : net.Inner r n) : net.OfRule r n := by
  obtain ⟨s, hs, rule, entry, -⟩ := inner
  exact ⟨s, hs, rule, entry⟩

theorem OfRule.mono {r : Int} {n : Nat} (h : net.OfRule r n) (grown : net.Extends net') :
    net'.OfRule r n := by
  obtain ⟨s, hs, rule, entry⟩ := h
  obtain ⟨s', hs', -, kind', rule'⟩ := grown.states n s hs
  exact ⟨s', hs', rule'.trans rule, kind' ▸ entry⟩

theorem Inner.mono {r : Int} {n : Nat} (h : net.Inner r n) (grown : net.Extends net') :
    net'.Inner r n := by
  obtain ⟨s, hs, rule, entry, stop⟩ := h
  obtain ⟨s', hs', -, kind', rule'⟩ := grown.states n s hs
  exact ⟨s', hs', rule'.trans rule, kind' ▸ entry, kind' ▸ stop⟩

/-! ### Edges that a state may have -/

/-- What holds of an edge from a state that is no end of a rule and no entry of a mode: it stays in
the rule, or it calls a rule at its start and goes on in the rule. -/
def StaysIn (net : Network) (r : Int) (t : Transition) : Prop :=
  match t.label with
  | .call follow callee _ =>
      net.startOf? callee = some t.target ∧ net.kindAt? t.target = some .ruleStart ∧
        net.OfRule callee t.target ∧ net.OfRule r follow
  | _ => net.OfRule r t.target

/-- The edges that a state may have. -/
def Admits (net : Network) (s : State) (t : Transition) : Prop :=
  match s.kind with
  | .ruleStop => t.label = .epsilon ∧ ∃ r, net.OfRule r t.target
  | .tokenStart =>
      t.label = .epsilon ∧ ∃ (i : Nat) (rule : Rule), net.rules[i]? = some rule ∧
        rule.start = t.target ∧ net.OfRule i t.target
  | _ => net.StaysIn s.rule t

theorem admits_iff_staysIn {s : State} {t : Transition} (stop : s.kind ≠ .ruleStop)
    (entry : s.kind ≠ .tokenStart) : net.Admits s t ↔ net.StaysIn s.rule t := by
  unfold Admits
  split
  · next kind => exact absurd kind stop
  · next kind => exact absurd kind entry
  · exact Iff.rfl

/-- The states that an edge names belong to rules. -/
theorem Admits.names {s : State} {t : Transition} (admits : net.Admits s t) :
    (∃ r, net.OfRule r t.target) ∧ ∀ follow ∈ t.label.follow?.toList, ∃ r, net.OfRule r follow := by
  unfold Admits at admits
  split at admits
  · obtain ⟨label, target⟩ := admits
    exact ⟨target, by simp [label, Label.follow?]⟩
  · obtain ⟨label, i, rule, -, -, target⟩ := admits
    exact ⟨⟨i, target⟩, by simp [label, Label.follow?]⟩
  · unfold StaysIn at admits
    split at admits
    · next label =>
        obtain ⟨-, -, target, follow⟩ := admits
        exact ⟨⟨_, target⟩, by simpa [label, Label.follow?] using ⟨_, follow⟩⟩
    · next plain =>
        refine ⟨⟨_, admits⟩, ?_⟩
        cases hl : t.label with
        | call follow callee level => exact absurd hl (plain follow callee level)
        | _ => simp [Label.follow?]

theorem startOf?_eq_some_iff {r : Int} {n : Nat} :
    net.startOf? r = some n ↔ 0 ≤ r ∧ ∃ rule, net.rules[r.toNat]? = some rule ∧ rule.start = n := by
  unfold startOf? entryAt?
  split
  · simp; omega
  · simp; omega

theorem startOf?_mono {r : Int} {n : Nat} (h : net.startOf? r = some n) (grown : net.Extends net') :
    net'.startOf? r = some n := by
  obtain ⟨nonneg, rule, entry, start⟩ := startOf?_eq_some_iff.mp h
  exact startOf?_eq_some_iff.mpr ⟨nonneg, rule, grown.rules _ _ entry, start⟩

theorem kindAt?_mono {n : Nat} {kind : StateKind} (h : net.kindAt? n = some kind)
    (grown : net.Extends net') : net'.kindAt? n = some kind := by
  obtain ⟨s, hs, rfl⟩ := Option.map_eq_some_iff.mp h
  obtain ⟨s', hs', -, kind', -⟩ := grown.states n s hs
  exact Option.map_eq_some_iff.mpr ⟨s', hs', kind'⟩

theorem StaysIn.mono {r : Int} {t : Transition} (h : net.StaysIn r t) (grown : net.Extends net') :
    net'.StaysIn r t := by
  unfold StaysIn at h ⊢
  split at h
  · obtain ⟨starts, kind, callee, follow⟩ := h
    exact ⟨startOf?_mono starts grown, kindAt?_mono kind grown, callee.mono grown, follow.mono grown⟩
  · exact h.mono grown

/-- An admitted edge stays admitted. -/
theorem Admits.mono {s s' : State} {t : Transition} (h : net.Admits s t) (grown : net.Extends net')
    (kind : s'.kind = s.kind) (rule : s'.rule = s.rule) : net'.Admits s' t := by
  unfold Admits at h ⊢
  rw [kind, rule]
  split at h
  · obtain ⟨label, r, target⟩ := h
    exact ⟨label, r, target.mono grown⟩
  · obtain ⟨label, r, registered, entry, start, target⟩ := h
    exact ⟨label, r, registered, grown.rules _ _ entry, start, target.mono grown⟩
  · exact h.mono grown

/-- The boundary states of a rule carry its number. -/
structure Bounds (net : Network) (r : Int) (rule : Rule) : Prop where
  start : ∃ s, net.get? rule.start = some s ∧ s.kind = .ruleStart ∧ s.rule = r
  stop : ∃ s, net.get? rule.stop = some s ∧ s.kind = .ruleStop ∧ s.rule = r

theorem Bounds.mono {r : Int} {rule : Rule} (bounds : net.Bounds r rule) (grown : net.Extends net') :
    net'.Bounds r rule where
  start := by
    obtain ⟨s, hs, kind, number⟩ := bounds.start
    obtain ⟨s', hs', -, kind', rule'⟩ := grown.states _ s hs
    exact ⟨s', hs', kind'.trans kind, rule'.trans number⟩
  stop := by
    obtain ⟨s, hs, kind, number⟩ := bounds.stop
    obtain ⟨s', hs', -, kind', rule'⟩ := grown.states _ s hs
    exact ⟨s', hs', kind'.trans kind, rule'.trans number⟩

theorem Bounds.inner_start {r : Int} {rule : Rule} (bounds : net.Bounds r rule) :
    net.Inner r rule.start := by
  obtain ⟨s, hs, kind, number⟩ := bounds.start
  exact ⟨s, hs, number, by simp [kind], by simp [kind]⟩

theorem Bounds.ofRule_stop {r : Int} {rule : Rule} (bounds : net.Bounds r rule) :
    net.OfRule r rule.stop := by
  obtain ⟨s, hs, kind, number⟩ := bounds.stop
  exact ⟨s, hs, number, by simp [kind]⟩

/-- A call goes to the start of a rule and goes on in the rule of the call. -/
theorem Bounds.staysIn_call {r callee level : Int} {rule : Rule} {follow : Nat}
    (bounds : net.Bounds callee rule) (starts : net.startOf? callee = some rule.start)
    (there : net.OfRule r follow) : net.StaysIn r ⟨rule.start, .call follow callee level⟩ := by
  obtain ⟨s, hs, kind, -⟩ := bounds.start
  have start : net.kindAt? rule.start = some .ruleStart :=
    Option.map_eq_some_iff.mpr ⟨s, hs, kind⟩
  exact ⟨starts, start, bounds.inner_start.ofRule, there⟩

/-- An end of a rule returns to where a call goes on. -/
theorem Bounds.admits_return {r callee : Int} {rule : Rule} {follow : Nat}
    (bounds : net.Bounds callee rule) (there : net.OfRule r follow) :
    ∃ s, net.get? rule.stop = some s ∧ net.Admits s (.epsilon follow) := by
  obtain ⟨s, hs, kind, -⟩ := bounds.stop
  refine ⟨s, hs, ?_⟩
  simp only [Admits, kind]
  exact ⟨rfl, r, there⟩

/-! ### Wired networks -/

/-- All states have only the edges they may have, and the rules are registered as they should. -/
structure Wired (net : Network) : Prop where
  numbered : net.All fun n s => s.number = n
  edges : net.All fun _ s => ∀ t ∈ s.transitions, net.Admits s t
  bounds : ∀ (i : Nat) rule, net.rules[i]? = some rule → net.Bounds i rule
  stops : net.All fun _ s => s.kind = .ruleStop → (net.startOf? s.rule).isSome

/-- A network stays wired when its states keep their edges and new states have none. -/
theorem Wired.grow (wired : net.Wired) (grown : net.Extends net')
    (states : net'.All fun n s' => (∃ s, net.get? n = some s ∧ s'.transitions = s.transitions) ∨
      (s'.number = n ∧ s'.transitions = [] ∧
        (s'.kind = .ruleStop → (net'.startOf? s'.rule).isSome)))
    (rules : ∀ (i : Nat) rule, net'.rules[i]? = some rule →
      net.rules[i]? = some rule ∨ net'.Bounds i rule) : net'.Wired := by
  have old : ∀ {n s s'}, net.get? n = some s → net'.get? n = some s' →
      s'.number = s.number ∧ s'.kind = s.kind ∧ s'.rule = s.rule := by
    intro n s s' hs hs'
    obtain ⟨s'', hs'', same⟩ := grown.states n s hs
    rw [hs'] at hs''
    cases hs''
    exact same
  refine
    { numbered := fun n s' hs' => ?_
      edges := fun n s' hs' t mem => ?_
      bounds := fun i rule entry => ?_
      stops := fun n s' hs' kind => ?_ }
  · rcases states n s' hs' with ⟨s, hs, -⟩ | ⟨number, -⟩
    · exact (old hs hs').1.trans (wired.numbered n s hs)
    · exact number
  · rcases states n s' hs' with ⟨s, hs, same⟩ | ⟨-, none, -⟩
    · obtain ⟨-, kind, rule⟩ := old hs hs'
      exact (wired.edges n s hs t (same ▸ mem)).mono grown kind rule
    · rw [none] at mem
      cases mem
  · rcases rules i rule entry with before | bounds
    · exact (wired.bounds i rule before).mono grown
    · exact bounds
  · rcases states n s' hs' with ⟨s, hs, -⟩ | ⟨-, -, registered⟩
    · obtain ⟨-, kind', rule'⟩ := old hs hs'
      obtain ⟨start, starts⟩ :=
        Option.isSome_iff_exists.mp (wired.stops n s hs (kind'.symm.trans kind))
      rw [rule', startOf?_mono starts grown]
      rfl
    · exact registered kind

/-! ### New states -/

theorem extends_pushState (net : Network) (kind : StateKind) (rule : Int) :
    net.Extends (net.pushState kind rule) where
  states := by
    intro n s hs
    have old : n ≠ net.states.size := Nat.ne_of_lt (Lookahead.lt_size_of_get? hs)
    exact ⟨s, by rw [get?_pushState, if_neg old, hs], rfl, rfl, rfl⟩
  rules := fun _ _ h => h

theorem get?_pushState_self (net : Network) (kind : StateKind) (rule : Int) :
    (net.pushState kind rule).get? net.states.size =
      some { number := net.states.size, kind, rule } := by
  rw [get?_pushState, if_pos rfl]

theorem Wired.pushState (wired : net.Wired) {kind : StateKind} {rule : Int}
    (inner : kind ≠ .ruleStop) : (net.pushState kind rule).Wired := by
  refine wired.grow (net.extends_pushState kind rule) (fun n s' hs' => ?_) fun _ _ h => .inl h
  rw [get?_pushState] at hs'
  split at hs'
  · cases hs'
    exact .inr ⟨rfl, rfl, fun stop => absurd stop inner⟩
  · exact .inl ⟨s', hs', rfl⟩

/-! ### New edges -/

theorem extends_addTransition (net : Network) (source : Nat) (t : Transition) :
    net.Extends (net.addTransition source t) where
  states := by
    intro n s hs
    rw [get?_addTransition, hs]
    split
    · exact ⟨_, rfl, rfl, rfl, rfl⟩
    · exact ⟨_, rfl, rfl, rfl, rfl⟩
  rules := fun _ _ h => h

theorem Wired.addTransition (wired : net.Wired) {source : Nat} {s : State} {t : Transition}
    (hs : net.get? source = some s) (admits : net.Admits s t) :
    (net.addTransition source t).Wired := by
  have grown := net.extends_addTransition source t
  -- each state is one of before, up to the new edge
  have before : ∀ n s', (net.addTransition source t).get? n = some s' →
      ∃ s₀, net.get? n = some s₀ ∧ s'.number = s₀.number ∧ s'.kind = s₀.kind ∧
        s'.rule = s₀.rule ∧ ∀ t' ∈ s'.transitions, t' ∈ s₀.transitions ∨ (source = n ∧ t' = t) := by
    intro n s' hs'
    rw [get?_addTransition] at hs'
    split at hs'
    · next here =>
        obtain ⟨s₀, hs₀, rfl⟩ := Option.map_eq_some_iff.mp hs'
        refine ⟨s₀, hs₀, rfl, rfl, rfl, fun t' mem => ?_⟩
        rcases List.mem_append.mp mem with mem | mem
        · exact .inl mem
        · exact .inr ⟨here, List.mem_singleton.mp mem⟩
    · exact ⟨s', hs', rfl, rfl, rfl, fun t' mem => .inl mem⟩
  refine
    { numbered := fun n s' hs' => ?_
      edges := fun n s' hs' t' mem => ?_
      bounds := fun i rule entry => (wired.bounds i rule entry).mono grown
      stops := fun n s' hs' kind => ?_ }
  · obtain ⟨s₀, hs₀, number, -⟩ := before n s' hs'
    exact number.trans (wired.numbered n s₀ hs₀)
  · obtain ⟨s₀, hs₀, -, kind, rule, edges⟩ := before n s' hs'
    rcases edges t' mem with old | ⟨rfl, rfl⟩
    · exact (wired.edges n s₀ hs₀ t' old).mono grown kind rule
    · obtain rfl : s = s₀ := Option.some.inj (hs.symm.trans hs₀)
      exact admits.mono grown kind rule
  · obtain ⟨s₀, hs₀, -, kind', rule', -⟩ := before n s' hs'
    rw [rule']
    exact wired.stops n s₀ hs₀ (kind'.symm.trans kind)

/-! ### Other changes -/

/-- What a change of a state has to leave as it is. -/
def core (s : State) : Nat × StateKind × Int × List Transition :=
  (s.number, s.kind, s.rule, s.transitions)

/-- The networks differ in nothing that edges depend on. -/
structure Alike (net net' : Network) : Prop where
  states : ∀ n, (net'.get? n).map core = (net.get? n).map core
  rules : net'.rules = net.rules

theorem Alike.extends (alike : net.Alike net') : net.Extends net' where
  states := by
    intro n s hs
    have same := alike.states n
    rw [hs] at same
    obtain ⟨s', hs', core⟩ := Option.map_eq_some_iff.mp same
    simp only [Network.core, Prod.mk.injEq] at core
    exact ⟨s', hs', core.1, core.2.1, core.2.2.1⟩
  rules := fun i rule h => alike.rules ▸ h

theorem Wired.alike (wired : net.Wired) (alike : net.Alike net') : net'.Wired := by
  refine wired.grow alike.extends (fun n s' hs' => .inl ?_) fun i rule h => .inl (alike.rules ▸ h)
  have same := alike.states n
  rw [hs'] at same
  obtain ⟨s, hs, core⟩ := Option.map_eq_some_iff.mp same.symm
  simp only [Network.core, Prod.mk.injEq] at core
  exact ⟨s, hs, core.2.2.2.symm⟩

/-- Changing a state in nothing that edges depend on. -/
theorem alike_modifyState (net : Network) (n : Nat) {f : State → State}
    (keeps : ∀ s, core (f s) = core s) : net.Alike (net.modifyState n f) where
  states := by
    intro m
    rw [get?_modifyState]
    split
    · rw [Option.map_map]
      exact congrArg (fun g => (net.get? m).map g) (funext keeps)
    · rfl
  rules := rfl

/-! ### Wired networks are rule-closed -/

theorem OfRule.isSome {r : Int} {n : Nat} (h : net.OfRule r n) : (net.get? n).isSome := by
  obtain ⟨s, hs, -⟩ := h
  rw [hs]
  rfl

theorem OfRule.ruleAt? {r : Int} {n : Nat} (h : net.OfRule r n) : net.ruleAt? n = some r := by
  obtain ⟨s, hs, rule, -⟩ := h
  exact Option.map_eq_some_iff.mpr ⟨s, hs, rule⟩

theorem OfRule.kindAt? {r : Int} {n : Nat} (h : net.OfRule r n) :
    net.kindAt? n ≠ some .tokenStart := by
  obtain ⟨s, hs, -, entry⟩ := h
  simpa [Network.kindAt?, hs] using entry

theorem Wired.ruleClosed (wired : net.Wired) : net.RuleClosed where
  live := by
    intro n s hs t mem
    obtain ⟨⟨r, target⟩, follows⟩ := (wired.edges n s hs t mem).names
    refine ⟨target.isSome, fun follow hf => ?_⟩
    obtain ⟨r', there⟩ := follows follow hf
    exact there.isSome
  keeps := by
    intro n s hs stop entry t mem
    have stays := (admits_iff_staysIn stop entry).mp (wired.edges n s hs t mem)
    unfold StaysIn at stays
    unfold Keeps
    cases hl : t.label with
    | call follow callee level =>
        rw [hl] at stays
        obtain ⟨starts, kind, called, there⟩ := stays
        exact ⟨starts, kind, called.ruleAt?, there.ruleAt?⟩
    | _ =>
        simp only [hl] at stays ⊢
        exact stays.ruleAt?
  stops := wired.stops
  entries := by
    intro n s hs kind t mem
    have admits := wired.edges n s hs t mem
    simp only [Admits, kind] at admits
    obtain ⟨label, i, rule, entry, start, -⟩ := admits
    exact ⟨label, rule, Array.mem_toList_iff.mpr (Array.mem_of_getElem? entry), start⟩
  untargeted := by
    intro n s hs t mem
    obtain ⟨⟨r, target⟩, -⟩ := (wired.edges n s hs t mem).names
    exact target.kindAt?

theorem Wired.noEntryResumed (wired : net.Wired) : net.NoEntryResumed := by
  intro n s hs t mem follow hf
  obtain ⟨-, follows⟩ := (wired.edges n s hs t mem).names
  obtain ⟨r, there⟩ := follows follow hf
  exact there.kindAt?

/-- An end of a rule calls nothing. -/
theorem Wired.kind_of_call (wired : net.Wired) {n : Nat} {s : State} {t : Transition}
    (hs : net.get? n = some s) (mem : t ∈ s.transitions) {follow : Nat} {rule level : Int}
    (label : t.label = .call follow rule level) : s.kind ≠ .ruleStop := by
  intro kind
  have admits := wired.edges n s hs t mem
  simp only [Admits, kind] at admits
  rw [admits.1] at label
  cases label

end Network

end GrammarNet
