import GrammarNet.Proofs.Registries

/-!
References to states while states come and go.

Edges, rules, decisions, modes and prediction automata refer to states by their slots, and a slot is
empty once its state is removed. A removal looks at the decision of the state, at the boundaries of
rules and at the edges of other states, and at nothing else. This is enough: what else refers to a
state does so through one of these (`Tied`), so that no reference is left to an empty slot
(`Anchored`), and a removal is refused for the states that are still needed and for no others.

* `sourceOf?_eq_none_iff`: the search for an edge to a state finds one if there is one.
* `Tied.apply`: each operation keeps the references tied, whether it succeeds or is refused.
* `anchored_of_constructed`: the same for all operations on a network, with what a removal does.
-/

namespace GrammarNet

open Build

theorem Transition.reaches_iff {t : Transition} {n : Nat} :
    t.reaches n = true ↔ t.target = n ∨ t.label.follow? = some n := by
  simp [reaches]

namespace Network

/-! ### Live states -/

/-- There is a state in the slot. -/
def Live (net : Network) (n : Nat) : Prop :=
  (net.get? n).isSome

instance (net : Network) (n : Nat) : Decidable (net.Live n) := by
  unfold Live
  infer_instance

variable {net net' : Network}

theorem live_of_get? {n : Nat} {s : State} (hs : net.get? n = some s) : net.Live n := by
  rw [Live, hs]
  rfl

theorem Live.exists {n : Nat} (live : net.Live n) : ∃ s, net.get? n = some s :=
  Option.isSome_iff_exists.mp live

theorem get?_eq_some_iff {n : Nat} {s : State} :
    net.get? n = some s ↔ net.states[n]? = some (some s) := by
  simp [get?, Option.join_eq_some_iff]

/-- All states to which the edge refers are live. -/
def Leads (net : Network) (t : Transition) : Prop :=
  ∀ n, t.reaches n = true → net.Live n

theorem leads_iff {t : Transition} :
    net.Leads t ↔ net.Live t.target ∧ ∀ follow, t.label.follow? = some follow → net.Live follow := by
  simp only [Leads, Transition.reaches_iff, or_imp, forall_and, forall_eq']

theorem leads_of_plain {t : Transition} (plain : t.label.follow? = none)
    (live : net.Live t.target) : net.Leads t := by
  refine leads_iff.mpr ⟨live, fun follow goes => ?_⟩
  cases plain.symm.trans goes

theorem Leads.mono {t : Transition} (leads : net.Leads t) (live : ∀ n, net.Live n → net'.Live n) :
    net'.Leads t :=
  fun n reaches => live n (leads n reaches)

/-! ### What refers to a state -/

/-- Another state has an edge that leads to the state or goes on at it. -/
def ReachedByOther (net : Network) (n : Nat) : Prop :=
  ∃ m s, m ≠ n ∧ net.get? m = some s ∧
    ∃ t ∈ s.transitions, t.target = n ∨ t.label.follow? = some n

/-- The state is a decision, possibly as the start of a mode, or a boundary of a rule, or another
state leads to it. -/
def Needed (net : Network) (n : Nat) : Prop :=
  (n ∈ net.decisions ∨ ∃ mode ∈ net.modes, mode.start = n) ∨
    (∃ rule ∈ net.rules, rule.start = n ∨ rule.stop = n) ∨ net.ReachedByOther n

theorem not_reachedByOther_iff {n : Nat} :
    ¬net.ReachedByOther n ↔ net.All fun m s =>
      m ≠ n → ∀ t ∈ s.transitions, ¬(t.target = n ∨ t.label.follow? = some n) := by
  simp only [ReachedByOther, All, not_exists, not_and]
  exact ⟨fun none m s hs other => none m s other hs, fun none m s other hs => none m s hs other⟩

instance (net : Network) (n : Nat) : Decidable (net.ReachedByOther n) :=
  decidable_of_iff (¬net.All fun m s =>
    m ≠ n → ∀ t ∈ s.transitions, ¬(t.target = n ∨ t.label.follow? = some n))
    (by rw [← not_reachedByOther_iff, Classical.not_not])

instance (net : Network) (n : Nat) : Decidable (net.Needed n) := by
  unfold Needed
  infer_instance

/-- Each state to which the network refers is live. -/
structure Anchored (net : Network) : Prop where
  edges : net.All fun _ s => ∀ t ∈ s.transitions,
    net.Live t.target ∧ ∀ follow, t.label.follow? = some follow → net.Live follow
  rules : ∀ rule ∈ net.rules, net.Live rule.start ∧ net.Live rule.stop
  stops : net.All fun _ s => ∀ stop, s.stop = some stop → net.Live stop
  decisions : ∀ n ∈ net.decisions, net.Live n
  modes : ∀ mode ∈ net.modes, net.Live mode.start
  decisionDfas : ∀ dfa ∈ net.decisionDfas, ∃ n, dfa.networkState = some n ∧ net.Live n
  modeDfas : ∀ dfa ∈ net.modeDfas, ∃ n, dfa.networkState = some n ∧ net.Live n

/-- The search for an edge to the state finds none when no other state leads to it. -/
theorem sourceOf?_eq_none_iff (numbered : net.All fun n s => s.number = n) {n : Nat} :
    net.sourceOf? n = none ↔ ¬net.ReachedByOther n := by
  unfold sourceOf? ReachedByOther
  rw [List.findSome?_eq_none_iff]
  constructor
  · rintro none ⟨m, s, other, hs, t, mem, reaches⟩
    have slot : some s ∈ net.states.toList :=
      Array.mem_toList_iff.mpr (Array.mem_of_getElem? (get?_eq_some_iff.mp hs))
    have idle := none (some s) slot
    rw [Option.bind_some, if_pos] at idle
    · cases idle
    · have number := numbered m s hs
      exact ⟨by omega, List.any_eq_true.mpr ⟨t, mem, Transition.reaches_iff.mpr reaches⟩⟩
  · intro unreached slot mem
    obtain ⟨m, entry⟩ := Array.getElem?_of_mem (Array.mem_toList_iff.mp mem)
    cases slot with
    | none => rfl
    | some s =>
        have hs := get?_eq_some_iff.mpr entry
        rw [Option.bind_some, if_neg]
        rintro ⟨other, reaches⟩
        obtain ⟨t, mem, reaches⟩ := List.any_eq_true.mp reaches
        have number := numbered m s hs
        exact unreached ⟨m, s, by omega, hs, t, mem, Transition.reaches_iff.mp reaches⟩

/-! ### Tied references -/

/-- The registries are coherent, edges refer to live states, and only the start of a rule knows a
stop, which is the stop of that rule. -/
structure Tied (net : Network) : Prop where
  coherent : net.Coherent
  edges : net.All fun _ s => ∀ t ∈ s.transitions, net.Leads t
  stops : net.All fun n s => ∀ stop, s.stop = some stop → ⟨n, stop⟩ ∈ net.rules

theorem Coherent.live_decision (coherent : net.Coherent) {n : Nat} (mem : n ∈ net.decisions) :
    ∃ s, net.get? n = some s ∧ s.decision.isSome := by
  obtain ⟨d, entry⟩ := Array.getElem?_of_mem mem
  obtain ⟨s, hs, decision⟩ := (coherent.decision_iff d n).mp entry
  exact ⟨s, hs, by rw [decision]; rfl⟩

theorem Coherent.live_mode (coherent : net.Coherent) {mode : Mode} (mem : mode ∈ net.modes) :
    ∃ s, net.get? mode.start = some s ∧ s.decision.isSome := by
  obtain ⟨m, entry⟩ := Array.getElem?_of_mem mem
  obtain ⟨s, hs, -, decision⟩ := coherent.modeStarts m mode entry
  exact ⟨s, hs, decision⟩

theorem Coherent.live_rule (coherent : net.Coherent) {rule : Rule} (mem : rule ∈ net.rules) :
    net.Live rule.start ∧ net.Live rule.stop := by
  obtain ⟨r, entry⟩ := Array.getElem?_of_mem mem
  obtain ⟨⟨s, hs, -⟩, ⟨e, he, -⟩⟩ := coherent.rules r rule entry
  exact ⟨live_of_get? hs, live_of_get? he⟩

/-- The automata of a registry were made for its entries. -/
theorem networkState_of_mem {α : Type} {dfas : Array PredictionDfa} {entries : Array α}
    (state : α → Nat)
    (purposes : dfas.map (·.purpose) = entries.mapIdx fun i a => (some (state a), (i : Int)))
    {dfa : PredictionDfa} (mem : dfa ∈ dfas) :
    ∃ a ∈ entries, dfa.networkState = some (state a) := by
  have purpose : dfa.purpose ∈ dfas.map (·.purpose) := Array.mem_map.mpr ⟨dfa, mem, rfl⟩
  rw [purposes, Array.mem_mapIdx] at purpose
  obtain ⟨i, inside, same⟩ := purpose
  exact ⟨entries[i], Array.getElem_mem inside, (congrArg Prod.fst same).symm⟩

/-- Tied references lead to live states. -/
theorem Tied.anchored (tied : net.Tied) : net.Anchored where
  edges := fun n s hs t mem => leads_iff.mp (tied.edges n s hs t mem)
  rules := fun rule mem => tied.coherent.live_rule mem
  stops := fun n s hs stop known => (tied.coherent.live_rule (tied.stops n s hs stop known)).2
  decisions := by
    intro n mem
    obtain ⟨s, hs, -⟩ := tied.coherent.live_decision mem
    exact live_of_get? hs
  modes := by
    intro mode mem
    obtain ⟨s, hs, -⟩ := tied.coherent.live_mode mem
    exact live_of_get? hs
  decisionDfas := by
    intro dfa mem
    obtain ⟨n, registered, state⟩ := networkState_of_mem id tied.coherent.decisionDfas mem
    obtain ⟨s, hs, -⟩ := tied.coherent.live_decision registered
    exact ⟨n, state, live_of_get? hs⟩
  modeDfas := by
    intro dfa mem
    obtain ⟨mode, registered, state⟩ := networkState_of_mem Mode.start tied.coherent.modeDfas mem
    obtain ⟨s, hs, -⟩ := tied.coherent.live_mode registered
    exact ⟨mode.start, state, live_of_get? hs⟩

/-! ### Removals -/

/-- A registered decision carries a number, and a state that carries one is registered. -/
theorem Coherent.registered_iff (coherent : net.Coherent) {n : Nat} {s : State}
    (hs : net.get? n = some s) :
    (n ∈ net.decisions ∨ ∃ mode ∈ net.modes, mode.start = n) ↔ s.decision.isSome := by
  constructor
  · rintro (mem | ⟨mode, mem, rfl⟩)
    · obtain ⟨s', hs', decision⟩ := coherent.live_decision mem
      rwa [Option.some.inj (hs.symm.trans hs')]
    · obtain ⟨s', hs', decision⟩ := coherent.live_mode mem
      rwa [Option.some.inj (hs.symm.trans hs')]
  · intro decision
    obtain ⟨d, decision⟩ := Option.isSome_iff_exists.mp decision
    exact .inl (Array.mem_of_getElem? ((coherent.decision_iff d n).mpr ⟨s, hs, decision⟩))

/-- What a removal looks at is what the network needs. -/
theorem Coherent.needed_iff (coherent : net.Coherent) {n : Nat} {s : State}
    (hs : net.get? n = some s) :
    net.Needed n ↔
      s.decision.isSome ∨ net.isBoundary n = true ∨ net.sourceOf? n ≠ none := by
  rw [Needed, coherent.registered_iff hs, isBoundary_iff, Ne,
    sourceOf?_eq_none_iff coherent.numbered, Classical.not_not]

/-- A state that is needed stays, and the removal of any other live state empties its slot. -/
theorem Coherent.removeState (coherent : net.Coherent) {n : Nat} (live : net.Live n) :
    (net.Needed n → ∃ e, exec (removeState (some (.own n))) net = (.error e, net)) ∧
      (¬net.Needed n → exec (removeState (some (.own n))) net = (.ok (), net.without n)) := by
  obtain ⟨s, hs⟩ := live.exists
  rw [coherent.needed_iff hs]
  simp only [Build.removeState, exec_bind, exec_lookup, hs]
  cases decision : s.decision with
  | some d =>
      exact ⟨fun _ => ⟨.stateIsDecision n d, rfl⟩, fun free => absurd (.inl rfl) free⟩
  | none =>
      cases inner : net.isBoundary n with
      | true =>
          exact ⟨fun _ => ⟨.stateIsBoundary n, rfl⟩, fun free => absurd (.inr (.inl rfl)) free⟩
      | false =>
          cases source : net.sourceOf? n with
          | some m =>
              refine ⟨fun _ => ⟨.stateIsReached n m, rfl⟩, fun free => absurd ?_ free⟩
              exact .inr (.inr (Option.some_ne_none m))
          | none =>
              refine ⟨fun needed => ?_, fun _ => rfl⟩
              simp at needed

/-! ### Changes that keep references tied -/

/-- No state and no rule goes, and what is new is attached: edges lead to live states, and stops are
those of rules. -/
structure Attached (net net' : Network) : Prop where
  live : ∀ n, net.Live n → net'.Live n
  rules : ∀ rule ∈ net.rules, rule ∈ net'.rules
  edges : net'.All fun n s' => ∀ t ∈ s'.transitions,
    (∃ s, net.get? n = some s ∧ t ∈ s.transitions) ∨ net'.Leads t
  stops : net'.All fun n s' => ∀ stop, s'.stop = some stop →
    (∃ s, net.get? n = some s ∧ s.stop = some stop) ∨ ⟨n, stop⟩ ∈ net'.rules

variable {net'' : Network}

theorem Attached.refl (net : Network) : net.Attached net where
  live := fun _ live => live
  rules := fun _ mem => mem
  edges := fun _ s hs _ mem => .inl ⟨s, hs, mem⟩
  stops := fun _ s hs _ known => .inl ⟨s, hs, known⟩

theorem Attached.trans (first : net.Attached net') (second : net'.Attached net'') :
    net.Attached net'' where
  live := fun n live => second.live n (first.live n live)
  rules := fun rule mem => second.rules rule (first.rules rule mem)
  edges := by
    intro n s'' hs'' t mem
    rcases second.edges n s'' hs'' t mem with ⟨s', hs', old⟩ | new
    · exact (first.edges n s' hs' t old).imp_right fun leads => leads.mono second.live
    · exact .inr new
  stops := by
    intro n s'' hs'' stop known
    rcases second.stops n s'' hs'' stop known with ⟨s', hs', old⟩ | new
    · exact (first.stops n s' hs' stop old).imp_right (second.rules _)
    · exact .inr new

/-- References stay tied when what is new is attached. -/
theorem Tied.grow (tied : net.Tied) (coherent : net'.Coherent) (attached : net.Attached net') :
    net'.Tied where
  coherent := coherent
  edges := by
    intro n s' hs' t mem
    rcases attached.edges n s' hs' t mem with ⟨s, hs, old⟩ | new
    · exact (tied.edges n s hs t old).mono attached.live
    · exact new
  stops := by
    intro n s' hs' stop known
    rcases attached.stops n s' hs' stop known with ⟨s, hs, old⟩ | new
    · exact attached.rules _ (tied.stops n s hs stop old)
    · exact new

/-- With the same states, or some of them changed in nothing that refers to another state. -/
theorem attached_of_states (live : ∀ n, net.Live n → net'.Live n) (rules : net'.rules = net.rules)
    (states : net'.All fun n s' => (s'.transitions = [] ∧ s'.stop = none) ∨
      ∃ s, net.get? n = some s ∧ s'.transitions = s.transitions ∧ s'.stop = s.stop) :
    net.Attached net' where
  live := live
  rules := fun rule mem => rules ▸ mem
  edges := by
    intro n s' hs' t mem
    rcases states n s' hs' with ⟨none, -⟩ | ⟨s, hs, same, -⟩
    · rw [none] at mem
      cases mem
    · exact .inl ⟨s, hs, same ▸ mem⟩
  stops := by
    intro n s' hs' stop known
    rcases states n s' hs' with ⟨-, none⟩ | ⟨s, hs, -, same⟩
    · rw [none] at known
      cases known
    · exact .inl ⟨s, hs, same ▸ known⟩

theorem attached_pushState (net : Network) (kind : StateKind) (rule : Int) :
    net.Attached (net.pushState kind rule) := by
  refine attached_of_states (fun n live => ?_) rfl fun n s' hs' => ?_
  · obtain ⟨s, hs⟩ := live.exists
    obtain ⟨s', hs', -⟩ := (net.extends_pushState kind rule).states n s hs
    exact live_of_get? hs'
  · rw [get?_pushState] at hs'
    split at hs'
    · cases hs'
      exact .inl ⟨rfl, rfl⟩
    · exact .inr ⟨s', hs', rfl, rfl⟩

theorem attached_pushAbsent (net : Network) : net.Attached net.pushAbsent := by
  refine attached_of_states (fun n live => ?_) rfl fun n s' hs' => ?_
  · rwa [Live, get?_pushAbsent]
  · exact .inr ⟨s', (net.get?_pushAbsent n).symm.trans hs', rfl, rfl⟩

theorem live_modifyState {n m : Nat} {f : State → State} :
    (net.modifyState n f).Live m ↔ net.Live m := by
  rw [Live, Live, get?_modifyState]
  split <;> simp

theorem attached_addTransition (source : Nat) {t : Transition} (leads : net.Leads t) :
    net.Attached (net.addTransition source t) := by
  have live : ∀ n, net.Live n → (net.addTransition source t).Live n :=
    fun n => live_modifyState.mpr
  have before : ∀ n s', (net.addTransition source t).get? n = some s' →
      ∃ s, net.get? n = some s ∧ s'.stop = s.stop ∧ ∀ t' ∈ s'.transitions,
        t' ∈ s.transitions ∨ t' = t := by
    intro n s' hs'
    rw [get?_addTransition] at hs'
    split at hs'
    · obtain ⟨s, hs, rfl⟩ := Option.map_eq_some_iff.mp hs'
      exact ⟨s, hs, rfl, fun t' mem => by simpa using mem⟩
    · exact ⟨s', hs', rfl, fun t' mem => .inl mem⟩
  refine ⟨live, fun _ mem => mem, fun n s' hs' t' mem => ?_, fun n s' hs' stop known => ?_⟩
  · obtain ⟨s, hs, -, edges⟩ := before n s' hs'
    rcases edges t' mem with old | rfl
    · exact .inl ⟨s, hs, old⟩
    · exact .inr (leads.mono live)
  · obtain ⟨s, hs, same, -⟩ := before n s' hs'
    exact .inl ⟨s, hs, same ▸ known⟩

theorem attached_register (net : Network) (start stop : Nat) :
    net.Attached (Fragment.register net start stop) := by
  have before : ∀ n s', (Fragment.register net start stop).get? n = some s' →
      ∃ s, net.get? n = some s ∧
        s'.transitions = s.transitions ∧ (s'.stop = s.stop ∨ n = start ∧ s'.stop = some stop) := by
    intro n s' hs'
    replace hs' := (net.get?_modifyState start n _).symm.trans hs'
    split at hs'
    · next here =>
        obtain ⟨s, hs, rfl⟩ := Option.map_eq_some_iff.mp hs'
        exact ⟨s, hs, rfl, .inr ⟨here.symm, rfl⟩⟩
    · exact ⟨s', hs', rfl, .inl rfl⟩
  refine ⟨fun n live => live_modifyState.mpr live, fun rule mem => Array.mem_push_of_mem _ mem,
    fun n s' hs' t mem => ?_, fun n s' hs' e known => ?_⟩
  · obtain ⟨s, hs, same, -⟩ := before n s' hs'
    exact .inl ⟨s, hs, same ▸ mem⟩
  · obtain ⟨s, hs, -, same | ⟨rfl, new⟩⟩ := before n s' hs'
    · exact .inl ⟨s, hs, same ▸ known⟩
    · rw [new] at known
      cases known
      exact .inr Array.mem_push_self

theorem attached_withDecision (net : Network) (n : Nat) : net.Attached (net.withDecision n) := by
  refine attached_of_states (fun m live => live_modifyState.mpr live) rfl fun m s' hs' => .inr ?_
  obtain ⟨s, hs, rfl⟩ := exists_of_get?_withDecision hs'
  refine ⟨s, hs, ?_⟩
  split <;> exact ⟨rfl, rfl⟩

/-- Only the registries change. -/
theorem attached_registries (states : net'.states = net.states) (rules : net'.rules = net.rules) :
    net.Attached net' := by
  have same : ∀ n, net'.get? n = net.get? n := fun n => by rw [get?, get?, states]
  refine attached_of_states (fun n live => ?_) rules fun n s hs => .inr ⟨s, ?_, rfl, rfl⟩
  · rwa [Live, same]
  · rwa [← same]

/-- What goes is neither a boundary nor the target of an edge that stays. -/
theorem Tied.without (tied : net.Tied) {n : Nat} (coherent : (net.without n).Coherent)
    (unreached : ¬net.ReachedByOther n) : (net.without n).Tied where
  coherent := coherent
  edges := by
    intro m s hs t mem k reaches
    rw [get?_without] at hs
    split at hs
    · cases hs
    · next other =>
        have apart : n ≠ k := by
          rintro rfl
          exact unreached ⟨m, s, Ne.symm other, hs, t, mem, Transition.reaches_iff.mp reaches⟩
        rw [Live, get?_without, if_neg apart]
        exact tied.edges m s hs t mem k reaches
  stops := by
    intro m s hs stop known
    rw [get?_without] at hs
    split at hs
    · cases hs
    · exact tied.stops m s hs stop known

end Network

/-! ### Operations -/

namespace Construction

/-- Edges are added between live states. A call that goes on nowhere is refused, and so is one that
has no state to call. -/
def Admissible (net : Network) : Construction → Prop
  | addEdge source target _ _ => net.Live source ∧ net.Live target
  | addCall source _ follow _ => net.Live source ∧ ∀ n ∈ follow, net.Live n
  | createState .. | reserveSlot | removeState _ | defineRule .. | defineDecision _ | defineMode ..
  | defineTokenType .. | addLexerAction _ => True

instance (net : Network) (op : Construction) : Decidable (op.Admissible net) := by
  cases op <;> (unfold Admissible; infer_instance)

end Construction

/-- The network is made by operations that add edges only between live states. -/
inductive Constructed : Network → Prop where
  | start (grammar : GrammarKind) (maxSymbol : Int) : Constructed { grammar, maxSymbol }
  | step {net : Network} (op : Construction) :
      Constructed net → op.Admissible net → Constructed (op.apply net)

namespace Network

variable {net : Network}

theorem tied_start (grammar : GrammarKind) (maxSymbol : Int) : Tied { grammar, maxSymbol } where
  coherent := coherent_start grammar maxSymbol
  edges := fun n s hs => by simp [get?] at hs
  stops := fun n s hs => by simp [get?] at hs

/-- A call that is not refused leads to the start of a rule and goes on where it was told. -/
theorem Tied.addCall (tied : net.Tied) (source : Nat) (start : Option Nat) {follow : Option Nat}
    (precedence : Int) (there : ∀ n ∈ follow, net.Live n) :
    ((Construction.addCall source start follow precedence).apply net).Tied := by
  simp only [Construction.apply, Construction.run, callTransition, exec_bind, exec_lookup]
  cases hs : start.bind net.get? with
  | none => exact tied
  | some s =>
      obtain ⟨n, rfl, hs⟩ := Option.bind_eq_some_iff.mp hs
      by_cases kind : s.kind = .ruleStart
      · cases follow with
        | none => simpa [kind] using tied
        | some f =>
            have leads : net.Leads ⟨s.number, .call f s.rule precedence⟩ := by
              refine leads_iff.mpr ⟨?_, fun f' goes => ?_⟩
              · rw [tied.coherent.numbered n s hs]
                exact live_of_get? hs
              · cases goes
                exact there f rfl
            have grown := tied.grow (Coherently.addTransition source _ net tied.coherent).1
              (attached_addTransition source leads)
            simpa [kind] using grown
      · simpa [kind] using tied

/-- Each operation keeps the references tied, whether it succeeds or is refused. -/
theorem Tied.apply (tied : net.Tied) {op : Construction} (admissible : op.Admissible net) :
    (op.apply net).Tied := by
  have coherent : (op.apply net).Coherent := (Coherently.construction op net tied.coherent).1
  have numbered := tied.coherent.numbered
  cases op with
  | createState kind rule => exact tied.grow coherent (attached_pushState net kind rule)
  | reserveSlot => exact tied.grow coherent (attached_pushAbsent net)
  | addEdge source target label plain =>
      have leads : net.Leads ⟨target, label⟩ := leads_of_plain plain admissible.2
      exact tied.grow coherent (attached_addTransition source leads)
  | addCall source start follow precedence =>
      exact tied.addCall source start precedence admissible.2
  | removeState ref =>
      rcases removeState_cases ref net with ⟨e, refused⟩ | idle | ⟨n, rfl, removed, free⟩
      · simpa [Construction.apply, Construction.run, refused] using tied
      · simpa [Construction.apply, Construction.run, idle] using tied
      · have after : (Construction.removeState (some (.own n))).apply net = net.without n := by
          simp [Construction.apply, Construction.run, removed]
        rw [after] at coherent ⊢
        cases hs : net.get? n with
        | none =>
            -- an empty slot stays empty
            refine tied.grow coherent (attached_of_states (fun m live => ?_) rfl
              fun m s hs' => .inr ⟨s, ?_, rfl, rfl⟩)
            · rw [Live, get?_without, if_neg]
              · exact live
              · rintro rfl
                rw [Live, hs] at live
                cases live
            · rw [get?_without] at hs'
              split at hs'
              · cases hs'
              · exact hs'
        | some s =>
            exact tied.without coherent ((sourceOf?_eq_none_iff numbered).mp (free s hs).2.2)
  | defineRule start stop =>
      rcases defineRule_cases numbered start stop with
        ⟨e, refused⟩ | ⟨n, m, s, e, -, -, -, -, -, -, -, -, registered⟩
      · simp only [Construction.apply, Construction.run, exec_bind, refused]
        exact tied
      · simp only [Construction.apply, Construction.run, exec_bind, registered] at coherent ⊢
        exact tied.grow coherent (attached_register net n m)
  | defineDecision state =>
      rcases defineDecision_cases numbered state with ⟨e, refused⟩ | ⟨n, s, -, -, -, -, registered⟩
      · simp only [Construction.apply, Construction.run, exec_bind, refused]
        exact tied
      · simp only [Construction.apply, Construction.run, exec_bind, registered] at coherent ⊢
        exact tied.grow coherent (attached_withDecision net n)
  | defineMode name start =>
      rcases defineMode_cases numbered name start with
        ⟨e, refused⟩ | ⟨n, s, -, -, -, -, -, registered⟩
      · simp only [Construction.apply, Construction.run, exec_bind, refused]
        exact tied
      · simp only [Construction.apply, Construction.run, exec_bind, registered] at coherent ⊢
        exact tied.grow coherent
          ((attached_withDecision net n).trans (attached_registries rfl rfl))
  | defineTokenType rule tokenType =>
      simp only [Construction.apply, Construction.run, Build.defineTokenType] at coherent ⊢
      split
      · exact tied
      · next nonneg =>
          rw [if_neg nonneg] at coherent
          exact tied.grow coherent (attached_registries rfl rfl)
  | addLexerAction action => exact tied.grow coherent (attached_registries rfl rfl)

theorem tied_of_constructed (constructed : Constructed net) : net.Tied := by
  induction constructed with
  | start grammar maxSymbol => exact tied_start grammar maxSymbol
  | step op _ admissible ih => exact ih.apply admissible

/-- In a network made by operations that add edges only between live states, every reference leads
to a live state. Removing a live state is refused if and only if the state is needed, which changes
nothing; otherwise the removal empties the slot and changes nothing else. -/
theorem anchored_of_constructed (constructed : Constructed net) :
    net.Anchored ∧ ∀ n, net.Live n →
      ((∃ e, (exec (removeState (some (.own n))) net).1 = .error e) ↔ net.Needed n) ∧
      (net.Needed n → (exec (removeState (some (.own n))) net).2 = net) ∧
      (¬net.Needed n → exec (removeState (some (.own n))) net = (.ok (), net.without n)) := by
  have tied := tied_of_constructed constructed
  refine ⟨tied.anchored, fun n live => ?_⟩
  obtain ⟨kept, removed⟩ := tied.coherent.removeState live
  refine ⟨⟨?_, fun needed => ?_⟩, fun needed => ?_, removed⟩
  · rintro ⟨e, refused⟩
    refine Classical.byContradiction fun free => ?_
    rw [removed free] at refused
    cases refused
  · obtain ⟨e, refused⟩ := kept needed
    exact ⟨e, by rw [refused]⟩
  · obtain ⟨e, refused⟩ := kept needed
    rw [refused]

/-- A rule with the boundary states 0 and 1, and a call of it from state 2 that goes on at 3. -/
def oneCall : Network :=
  [.createState .ruleStart 0, .createState .ruleStop 0, .defineRule (some 0) (some 1),
    .createState .basic 0, .createState .basic 0, .addCall 2 (some 0) (some 3) 0].foldl
    (fun net (op : Construction) => op.apply net) { grammar := .parser, maxSymbol := 9 }

/-- Here the state at which the call goes on has to stay, and the state that calls may go. -/
theorem anchored_of_constructed_oneCall :
    Constructed oneCall ∧ oneCall.Live 2 ∧ oneCall.Live 3 ∧ ¬oneCall.Needed 2 ∧ oneCall.Needed 3 ∧
      exec (removeState (some (.own 2))) oneCall = (.ok (), oneCall.without 2) ∧
      (∃ e, (exec (removeState (some (.own 3))) oneCall).1 = .error e) := by
  have constructed : Constructed oneCall := by
    iterate 6 refine .step _ ?_ (by decide +kernel)
    exact .start .parser 9
  have calls : oneCall.Live 2 ∧ ¬oneCall.Needed 2 := by decide +kernel
  have follows : oneCall.Live 3 ∧ oneCall.Needed 3 := by decide +kernel
  obtain ⟨-, removal⟩ := anchored_of_constructed constructed
  exact ⟨constructed, calls.1, follows.1, calls.2, follows.2, (removal 2 calls.1).2.2 calls.2,
    (removal 3 follows.1).1.mpr follows.2⟩

end Network

end GrammarNet
