import GrammarNet.Proofs.Construction

/-!
The registries of a network while it is built.

A network is built by operations on the network itself and on fragments, in any order, with any
arguments, and whether they succeed or are refused. Throughout, the registries agree with the states
and with each other (`Network.Coherent`), and what was registered once stays (`Network.Kept`):
numbers are not given out again, an empty slot stays empty, and a prediction automaton is never
replaced. `Build.Coherently` says that some work keeps both, with one lemma for each operation;
`coherent_of_build` is the induction over the steps.
-/

namespace GrammarNet

open Build

/-! ### Coherent registries -/

/-- All entries of an array are in another at the same places. -/
def Appended {α : Type} (old new : Array α) : Prop :=
  ∀ (i : Nat) a, old[i]? = some a → new[i]? = some a

theorem Appended.refl {α : Type} (old : Array α) : Appended old old :=
  fun _ _ entry => entry

theorem Appended.trans {α : Type} {a b c : Array α} (first : Appended a b) (second : Appended b c) :
    Appended a c :=
  fun i x entry => second i x (first i x entry)

theorem Appended.push {α : Type} (old : Array α) (a : α) : Appended old (old.push a) := by
  intro i b entry
  have old : i ≠ old.size := by
    rintro rfl
    simp at entry
  rw [Array.getElem?_push, if_neg old, entry]

/-- What a prediction automaton was made for: its state and its number. -/
def PredictionDfa.purpose (dfa : PredictionDfa) : Option Nat × Int :=
  (dfa.networkState, dfa.number)

namespace Network

/-- The boundary states of a rule carry its number, and the start knows the stop. -/
structure Bounded (net : Network) (r : Nat) (rule : Rule) : Prop where
  start : ∃ s, net.get? rule.start = some s ∧ s.kind = .ruleStart ∧ s.rule = r ∧
    s.stop = some rule.stop
  stop : ∃ s, net.get? rule.stop = some s ∧ s.kind = .ruleStop ∧ s.rule = r

/-- The registries agree with the states and with each other. -/
structure Coherent (net : Network) : Prop where
  /-- A state is in the slot of its number. -/
  numbered : net.All fun n s => s.number = n
  /-- The decisions are the states that carry their numbers. -/
  decision_iff : ∀ d n : Nat,
    net.decisions[d]? = some n ↔ ∃ s, net.get? n = some s ∧ s.decision = some d
  /-- There is one automaton for each decision. -/
  decisionDfas : net.decisionDfas.map (·.purpose) =
    net.decisions.mapIdx fun d n => (some n, (d : Int))
  rules : ∀ (r : Nat) rule, net.rules[r]? = some rule → net.Bounded r rule
  /-- A mode starts at an entry of modes, which is a decision. -/
  modeStarts : ∀ (m : Nat) mode, net.modes[m]? = some mode →
    ∃ s, net.get? mode.start = some s ∧ s.kind = .tokenStart ∧ s.decision.isSome
  /-- A mode is found by its name. -/
  named : ∀ (m : Nat) mode, net.modes[m]? = some mode →
    net.modeStartNamed? mode.name = some mode.start
  /-- Different modes differ in their names and in their starts. -/
  modesDiffer : ∀ (m m' : Nat) mode mode', net.modes[m]? = some mode → net.modes[m']? = some mode' →
    mode.name = mode'.name ∨ mode.start = mode'.start → m = m'
  /-- There is one automaton for each mode. -/
  modeDfas : net.modeDfas.map (·.purpose) =
    net.modes.mapIdx fun m mode => (some mode.start, (m : Int))

/-- What was in a network is in its place in another, or its slot is empty. -/
structure Kept (net net' : Network) : Prop where
  size_le : net.states.size ≤ net'.states.size
  /-- A state in a slot of before is the state that was there. -/
  states : ∀ n s', n < net.states.size → net'.get? n = some s' →
    ∃ s, net.get? n = some s ∧ s'.kind = s.kind ∧ s'.rule = s.rule
  decisions : Appended net.decisions net'.decisions
  decisionDfas : Appended net.decisionDfas net'.decisionDfas
  rules : Appended net.rules net'.rules
  modes : Appended net.modes net'.modes
  modeDfas : Appended net.modeDfas net'.modeDfas

variable {net net' net'' : Network}

theorem Kept.refl (net : Network) : net.Kept net where
  size_le := Nat.le_refl _
  states := fun _ s' _ hs' => ⟨s', hs', rfl, rfl⟩
  decisions := .refl _
  decisionDfas := .refl _
  rules := .refl _
  modes := .refl _
  modeDfas := .refl _

theorem Kept.trans (first : net.Kept net') (second : net'.Kept net'') : net.Kept net'' where
  size_le := Nat.le_trans first.size_le second.size_le
  states := by
    intro n s'' old hs''
    obtain ⟨s', hs', kind', rule'⟩ := second.states n s'' (Nat.lt_of_lt_of_le old first.size_le) hs''
    obtain ⟨s, hs, kind, rule⟩ := first.states n s' old hs'
    exact ⟨s, hs, kind'.trans kind, rule'.trans rule⟩
  decisions := first.decisions.trans second.decisions
  decisionDfas := first.decisionDfas.trans second.decisionDfas
  rules := first.rules.trans second.rules
  modes := first.modes.trans second.modes
  modeDfas := first.modeDfas.trans second.modeDfas

/-! ### Changes of the states alone -/

/-- What the registries know of a state, whatever rule it starts. -/
def face (s : State) : StateKind × Int × Option Nat :=
  (s.kind, s.rule, s.decision)

theorem isBoundary_iff {n : Nat} :
    net.isBoundary n = true ↔ ∃ rule ∈ net.rules, rule.start = n ∨ rule.stop = n := by
  simp [isBoundary, ← Array.any_toList]

/-- The network with other states. -/
def withStates (net : Network) (states : Array (Option State)) : Network :=
  { net with states }

/-- Registries stay coherent when decisions and boundaries stay what they are, and no new state is
a decision. -/
theorem Coherent.withStates (coherent : net.Coherent) {states : Array (Option State)}
    (registered : ∀ n s, net.get? n = some s → s.decision.isSome ∨ net.isBoundary n = true →
      ∃ s', (net.withStates states).get? n = some s' ∧ face s' = face s)
    (stops : ∀ rule ∈ net.rules, ∀ s s', net.get? rule.start = some s →
      (net.withStates states).get? rule.start = some s' → s'.stop = s.stop)
    (now : ∀ n s', (net.withStates states).get? n = some s' →
      s'.number = n ∧ (s'.decision = none ∨ ∃ s, net.get? n = some s ∧ s.decision = s'.decision)) :
    (net.withStates states).Coherent where
  numbered := fun n s' hs' => (now n s' hs').1
  decision_iff := by
    intro d n
    change net.decisions[d]? = some n ↔ _
    rw [coherent.decision_iff]
    constructor
    · rintro ⟨s, hs, decision⟩
      obtain ⟨s', hs', same⟩ := registered n s hs (.inl (by rw [decision]; rfl))
      simp only [face, Prod.mk.injEq] at same
      exact ⟨s', hs', same.2.2.trans decision⟩
    · rintro ⟨s', hs', decision⟩
      rcases (now n s' hs').2 with none | ⟨s, hs, same⟩
      · rw [none] at decision
        cases decision
      · exact ⟨s, hs, same.trans decision⟩
  decisionDfas := coherent.decisionDfas
  rules := by
    intro r rule entry
    have mem := Array.mem_of_getElem? entry
    obtain ⟨s, hs, kind, number, stop⟩ := (coherent.rules r rule entry).start
    obtain ⟨e, he, kindE, numberE⟩ := (coherent.rules r rule entry).stop
    obtain ⟨s', hs', same⟩ :=
      registered _ s hs (.inr (isBoundary_iff.mpr ⟨rule, mem, .inl rfl⟩))
    obtain ⟨e', he', sameE⟩ :=
      registered _ e he (.inr (isBoundary_iff.mpr ⟨rule, mem, .inr rfl⟩))
    have stop' := stops rule mem s s' hs hs'
    simp only [face, Prod.mk.injEq] at same sameE
    exact
      { start := ⟨s', hs', same.1.trans kind, same.2.1.trans number, stop'.trans stop⟩
        stop := ⟨e', he', sameE.1.trans kindE, sameE.2.1.trans numberE⟩ }
  modeStarts := by
    intro m mode entry
    obtain ⟨s, hs, kind, decision⟩ := coherent.modeStarts m mode entry
    obtain ⟨s', hs', same⟩ := registered _ s hs (.inl decision)
    simp only [face, Prod.mk.injEq] at same
    exact ⟨s', hs', same.1.trans kind, same.2.2 ▸ decision⟩
  named := coherent.named
  modesDiffer := coherent.modesDiffer
  modeDfas := coherent.modeDfas

/-- A network with other states keeps the states and all registries. -/
theorem kept_withStates {states : Array (Option State)} (size_le : net.states.size ≤ states.size)
    (old : ∀ n s', n < net.states.size → (net.withStates states).get? n = some s' →
      ∃ s, net.get? n = some s ∧ s'.kind = s.kind ∧ s'.rule = s.rule) :
    net.Kept (net.withStates states) :=
  { Kept.refl net with size_le, states := old }

/-- A new state is in the slot of its number and is no decision. -/
theorem Coherent.pushState (coherent : net.Coherent) (kind : StateKind) (rule : Int) :
    (net.pushState kind rule).Coherent ∧ net.Kept (net.pushState kind rule) := by
  have old : ∀ n s, net.get? n = some s → (net.pushState kind rule).get? n = some s := by
    intro n s hs
    have old : n ≠ net.states.size := Nat.ne_of_lt (Lookahead.lt_size_of_get? hs)
    rw [get?_pushState, if_neg old, hs]
  constructor
  · refine coherent.withStates (fun n s hs _ => ⟨s, old n s hs, rfl⟩) ?_ fun n s' hs' => ?_
    · intro rule' _ s s' hs hs'
      cases (old _ s hs).symm.trans hs'
      rfl
    · replace hs' := (net.get?_pushState kind rule n).symm.trans hs'
      split at hs'
      · cases hs'
        exact ⟨rfl, .inl rfl⟩
      · exact ⟨coherent.numbered n s' hs', .inr ⟨s', hs', rfl⟩⟩
  · refine kept_withStates (by rw [Array.size_push]; omega) fun n s' old hs' => ?_
    replace hs' := (net.get?_pushState kind rule n).symm.trans hs'
    rw [if_neg (by omega)] at hs'
    exact ⟨s', hs', rfl, rfl⟩

theorem Coherent.pushAbsent (coherent : net.Coherent) :
    net.pushAbsent.Coherent ∧ net.Kept net.pushAbsent := by
  have same := net.get?_pushAbsent
  constructor
  · refine coherent.withStates (fun n s hs _ => ⟨s, (same n).trans hs, rfl⟩) ?_ fun n s' hs' => ?_
    · intro rule _ s s' hs hs'
      cases hs.symm.trans ((same _).symm.trans hs')
      rfl
    · replace hs' := (same n).symm.trans hs'
      exact ⟨coherent.numbered n s' hs', .inr ⟨s', hs', rfl⟩⟩
  · refine kept_withStates (by rw [Array.size_push]; omega) fun n s' _ hs' => ?_
    exact ⟨s', (same n).symm.trans hs', rfl, rfl⟩

/-- Changing a state in nothing that the registries know; the start of a rule keeps its stop. -/
theorem Coherent.modifyState (coherent : net.Coherent) (n : Nat) {f : State → State}
    (number : ∀ s, (f s).number = s.number) (same : ∀ s, face (f s) = face s)
    (stops : ∀ rule ∈ net.rules, rule.start = n → ∀ s, (f s).stop = s.stop) :
    (net.modifyState n f).Coherent ∧ net.Kept (net.modifyState n f) := by
  -- each state is one of before, up to the change
  have before : ∀ m s', (net.modifyState n f).get? m = some s' →
      ∃ s, net.get? m = some s ∧ s'.number = s.number ∧ face s' = face s := by
    intro m s' hs'
    rw [get?_modifyState] at hs'
    split at hs'
    · obtain ⟨s, hs, rfl⟩ := Option.map_eq_some_iff.mp hs'
      exact ⟨s, hs, number s, same s⟩
    · exact ⟨s', hs', rfl, rfl⟩
  constructor
  · refine coherent.withStates (fun m s hs _ => ?_) ?_ fun m s' hs' => ?_
    · have after := net.get?_modifyState n m f
      rw [hs] at after
      split at after
      · exact ⟨f s, after, same s⟩
      · exact ⟨s, after, rfl⟩
    · intro rule mem s s' hs hs'
      replace hs' := (net.get?_modifyState n rule.start f).symm.trans hs'
      rw [hs] at hs'
      split at hs'
      · next here =>
          cases hs'
          exact stops rule mem here.symm s
      · cases hs'
        rfl
    · obtain ⟨s, hs, number, face⟩ := before m s' hs'
      simp only [Network.face, Prod.mk.injEq] at face
      exact ⟨number.trans (coherent.numbered m s hs), .inr ⟨s, hs, face.2.2.symm⟩⟩
  · refine kept_withStates (Nat.le_of_eq Array.size_modify.symm) fun m s' _ hs' => ?_
    obtain ⟨s, hs, -, face⟩ := before m s' hs'
    simp only [Network.face, Prod.mk.injEq] at face
    exact ⟨s, hs, face.1, face.2.1⟩

/-- A state that is neither a decision nor a boundary may go. -/
theorem Coherent.without (coherent : net.Coherent) {n : Nat}
    (free : ∀ s, net.get? n = some s → s.decision = none ∧ net.isBoundary n = false) :
    (net.without n).Coherent ∧ net.Kept (net.without n) := by
  have other : ∀ m s', (net.without n).get? m = some s' → net.get? m = some s' := by
    intro m s' hs'
    rw [get?_without] at hs'
    split at hs'
    · cases hs'
    · exact hs'
  constructor
  · refine coherent.withStates (fun m s' hs' registered => ?_) ?_ fun m s' hs' => ?_
    · have apart : n ≠ m := by
        rintro rfl
        obtain ⟨decision, inner⟩ := free s' hs'
        simp [decision, inner] at registered
      exact ⟨s', ((net.get?_without n m).trans (if_neg apart)).trans hs', rfl⟩
    · intro rule _ s s' hs hs'
      cases hs.symm.trans (other _ s' hs')
      rfl
    · exact ⟨coherent.numbered m s' (other m s' hs'), .inr ⟨s', other m s' hs', rfl⟩⟩
  · refine kept_withStates (Nat.le_of_eq Array.size_modify.symm) fun m s' _ hs' => ?_
    exact ⟨s', other m s' hs', rfl, rfl⟩

/-- Token types and lexer actions are apart from the other registries. -/
theorem Coherent.withLexer (coherent : net.Coherent) (tokenTypes : Std.TreeMap Nat Int)
    (lexerActions : Array LexerAction) :
    Coherent { net with tokenTypes, lexerActions } ∧
      net.Kept { net with tokenTypes, lexerActions } where
  left :=
    { coherent with
      rules := fun r rule entry =>
        ⟨(coherent.rules r rule entry).start, (coherent.rules r rule entry).stop⟩ }
  right :=
    { Kept.refl net with
      states := (Kept.refl net).states }

/-! ### New rules, decisions and modes -/

open Fragment in
/-- Two states that carry the number of the next rule may become its boundary. -/
theorem Coherent.register (coherent : net.Coherent) {start stop : Nat} {s e : State}
    (hs : net.get? start = some s) (he : net.get? stop = some e) (kindS : s.kind = .ruleStart)
    (kindE : e.kind = .ruleStop) (ruleS : s.rule = net.rules.size)
    (ruleE : e.rule = net.rules.size) :
    (register net start stop).Coherent ∧ net.Kept (register net start stop) := by
  -- the start of a registered rule carries the number of that rule
  have new : ∀ rule ∈ net.rules, rule.start ≠ start := by
    rintro rule mem rfl
    obtain ⟨r, entry⟩ := Array.getElem?_of_mem mem
    obtain ⟨s', hs', -, number, -⟩ := (coherent.rules r rule entry).start
    obtain rfl : s = s' := Option.some.inj (hs.symm.trans hs')
    have old : r < net.rules.size := (Array.getElem?_eq_some_iff.mp entry).1
    omega
  obtain ⟨marked, kept⟩ := coherent.modifyState start (f := fun s => { s with stop := some stop })
    (fun _ => rfl) (fun _ => rfl) fun rule mem here => absurd here (new rule mem)
  have apart : start ≠ stop := by
    rintro rfl
    cases hs.symm.trans he
    rw [kindS] at kindE
    cases kindE
  refine ⟨{ marked with rules := fun r rule entry => ?_ }, { kept with rules := .push _ _ }⟩
  have entry : (net.rules.push ⟨start, stop⟩)[r]? = some rule := entry
  rw [Array.getElem?_push] at entry
  split at entry
  · next last =>
      cases entry
      subst last
      refine ⟨⟨{ s with stop := some stop }, ?_, kindS, ruleS, rfl⟩, ⟨e, ?_, kindE, ruleE⟩⟩
      · refine (net.get?_modifyState ..).trans ?_
        rw [if_pos rfl, hs]
        rfl
      · refine (net.get?_modifyState ..).trans ?_
        rw [if_neg apart, he]
  · exact ⟨(marked.rules r rule entry).start, (marked.rules r rule entry).stop⟩

/-- A state that is no decision may become the next one. -/
theorem Coherent.withDecision (coherent : net.Coherent) {n : Nat} {s : State}
    (hs : net.get? n = some s) (fresh : s.decision = none) :
    (net.withDecision n).Coherent ∧ net.Kept (net.withDecision n) := by
  have decisions : ∀ d : Nat, (net.withDecision n).decisions[d]? =
      if d = net.decisions.size then some n else net.decisions[d]? :=
    fun d => Array.getElem?_push
  constructor
  · refine
      { numbered := fun m s' hs' => ?_
        decision_iff := fun d m => ?_
        decisionDfas := ?_
        rules := fun r rule entry => ?_
        modeStarts := fun m mode entry => ?_
        named := coherent.named
        modesDiffer := coherent.modesDiffer
        modeDfas := coherent.modeDfas }
    · obtain ⟨s, hs, rfl⟩ := exists_of_get?_withDecision hs'
      split <;> exact coherent.numbered m s hs
    · rw [decisions]
      constructor
      · split
        · next last =>
            rintro ⟨⟩
            exact ⟨_, get?_withDecision_of_some hs, by rw [if_pos rfl, last]⟩
        · intro entry
          obtain ⟨s', hs', decision⟩ := (coherent.decision_iff d m).mp entry
          refine ⟨_, get?_withDecision_of_some hs', ?_⟩
          rw [if_neg, decision]
          rintro rfl
          rw [Option.some.inj (hs.symm.trans hs'), decision] at fresh
          cases fresh
      · rintro ⟨s', hs', decision⟩
        obtain ⟨s₀, hs₀, rfl⟩ := exists_of_get?_withDecision hs'
        split at decision
        · next here =>
            rw [if_pos (Option.some.inj decision).symm, here]
        · have entry := (coherent.decision_iff d m).mpr ⟨s₀, hs₀, decision⟩
          have old : d < net.decisions.size := (Array.getElem?_eq_some_iff.mp entry).1
          rw [if_neg (by omega), entry]
    · change (net.decisionDfas.push _).map _ = (net.decisions.push n).mapIdx _
      rw [Array.map_push, Array.mapIdx_push, coherent.decisionDfas]
      rfl
    · obtain ⟨s, hs, kind, number, stop⟩ := (coherent.rules r rule entry).start
      obtain ⟨e, he, kindE, numberE⟩ := (coherent.rules r rule entry).stop
      refine ⟨⟨_, get?_withDecision_of_some hs, ?_⟩, ⟨_, get?_withDecision_of_some he, ?_⟩⟩
      · split <;> exact ⟨kind, number, stop⟩
      · split <;> exact ⟨kindE, numberE⟩
    · obtain ⟨s, hs, kind, decision⟩ := coherent.modeStarts m mode entry
      refine ⟨_, get?_withDecision_of_some hs, ?_⟩
      split
      · exact ⟨kind, rfl⟩
      · exact ⟨kind, decision⟩
  · refine
      { Kept.refl net with
        size_le := ?_
        states := fun m s' _ hs' => ?_
        decisions := .push _ _
        decisionDfas := .push _ _ }
    · exact Nat.le_of_eq Array.size_modify.symm
    · obtain ⟨s, hs, rfl⟩ := exists_of_get?_withDecision hs'
      refine ⟨s, hs, ?_⟩
      split <;> exact ⟨rfl, rfl⟩

/-- A decision that starts no mode may start the next one, under a name that is not taken. -/
theorem Coherent.withMode (coherent : net.Coherent) {name : String} {n : Nat} {s : State}
    (hs : net.get? n = some s) (kind : s.kind = .tokenStart) (decision : s.decision.isSome)
    (free : net.modeStartNamed? name = none)
    (new : ∀ (m : Nat) mode, net.modes[m]? = some mode → mode.start ≠ n) :
    (net.withMode name n).Coherent ∧ net.Kept (net.withMode name n) := by
  have modes : ∀ (m : Nat) mode, (net.withMode name n).modes[m]? = some mode →
      (m = net.modes.size ∧ mode = ⟨name, n⟩) ∨ net.modes[m]? = some mode := by
    intro m mode entry
    replace entry : (net.modes.push ⟨name, n⟩)[m]? = some mode := entry
    rw [Array.getElem?_push] at entry
    split at entry
    · next last => exact .inl ⟨last, (Option.some.inj entry).symm⟩
    · exact .inr entry
  -- an old mode has neither the name nor the start of the new one
  have differs : ∀ (m : Nat) mode, net.modes[m]? = some mode → mode.name = name ∨ mode.start = n →
      False := by
    rintro m mode entry (rfl | same)
    · rw [coherent.named m mode entry] at free
      cases free
    · exact new m mode entry same
  constructor
  · refine
      { coherent with
        rules := fun r rule entry =>
          ⟨(coherent.rules r rule entry).start, (coherent.rules r rule entry).stop⟩
        modeStarts := fun m mode entry => ?_
        named := fun m mode entry => ?_
        modesDiffer := fun m m' mode mode' entry entry' same => ?_
        modeDfas := ?_ }
    · rcases modes m mode entry with ⟨-, rfl⟩ | entry
      · exact ⟨s, hs, kind, decision⟩
      · exact coherent.modeStarts m mode entry
    · rw [modeStartNamed?_withMode]
      rcases modes m mode entry with ⟨-, rfl⟩ | entry
      · rw [free, if_pos rfl]
        rfl
      · rw [coherent.named m mode entry]
        rfl
    · rcases modes m mode entry with ⟨last, rfl⟩ | entry <;>
        rcases modes m' mode' entry' with ⟨last', rfl⟩ | entry'
      · rw [last, last']
      · exact (differs m' mode' entry' (same.imp Eq.symm Eq.symm)).elim
      · exact (differs m mode entry same).elim
      · exact coherent.modesDiffer m m' mode mode' entry entry' same
    · change (net.modeDfas.push _).map _ = (net.modes.push _).mapIdx _
      rw [Array.map_push, Array.mapIdx_push, coherent.modeDfas]
      rfl
  · exact { Kept.refl net with modes := .push _ _, modeDfas := .push _ _ }

end Network

namespace Build

/-! ### Work that keeps the registries coherent -/

/-- Whether it succeeds or is refused, the work leaves coherent registries that keep what was in
them. -/
def Coherently {α : Type} (work : Build α) : Prop :=
  ∀ net : Network, net.Coherent → (exec work net).2.Coherent ∧ net.Kept (exec work net).2

namespace Coherently

variable {α β : Type}

theorem pure (a : α) : Coherently (pure a) :=
  fun net coherent => ⟨coherent, .refl net⟩

theorem throw (e : NetworkError) : Coherently (throw e : Build α) :=
  fun net coherent => ⟨coherent, .refl net⟩

theorem lookup (find : Network → Except NetworkError α) : Coherently (lookup find) := by
  intro net coherent
  rw [exec_lookup]
  exact ⟨coherent, .refl net⟩

theorem bind {work : Build α} {next : α → Build β} (first : Coherently work)
    (rest : ∀ a, Coherently (next a)) : Coherently (work >>= next) := by
  intro net coherent
  have before := first net coherent
  rw [exec_bind]
  generalize exec work net = outcome at before
  obtain ⟨answer | a, net'⟩ := outcome
  · exact before
  · have after := rest a net' before.1
    exact ⟨after.1, before.2.trans after.2⟩

/-! The operations on the network -/

theorem createState (kind : StateKind) (rule : Int) : Coherently (createState kind rule) :=
  fun _ coherent => coherent.pushState kind rule

theorem reserveSlot : Coherently reserveSlot :=
  fun _ coherent => coherent.pushAbsent

theorem addTransition (source : Nat) (t : Transition) : Coherently (addTransition source t) :=
  fun _ coherent =>
    coherent.modifyState source (fun _ => rfl) (fun _ => rfl) fun _ _ _ _ => rfl

theorem connect (source target : Nat) : Coherently (connect source target) :=
  addTransition source _

theorem removeState (ref : Option StateRef) : Coherently (removeState ref) := by
  intro net coherent
  rcases removeState_cases ref net with ⟨e, refused⟩ | idle | ⟨n, -, removed, free⟩
  · rw [refused]
    exact ⟨coherent, .refl net⟩
  · rw [idle]
    exact ⟨coherent, .refl net⟩
  · rw [removed]
    exact coherent.without fun s hs => ⟨(free s hs).1, (free s hs).2.1⟩

theorem defineRule (start stop : Option Nat) : Coherently (defineRule start stop) := by
  intro net coherent
  rcases defineRule_cases coherent.numbered start stop with
    ⟨e, refused⟩ | ⟨n, m, s, e, -, -, hs, he, kindS, kindE, ruleS, ruleE, registered⟩
  · rw [refused]
    exact ⟨coherent, .refl net⟩
  · rw [registered]
    exact coherent.register hs he kindS kindE ruleS ruleE

theorem defineDecision (state : Option Nat) : Coherently (defineDecision state) := by
  intro net coherent
  rcases defineDecision_cases coherent.numbered state with
    ⟨e, refused⟩ | ⟨n, s, -, hs, -, fresh, registered⟩
  · rw [refused]
    exact ⟨coherent, .refl net⟩
  · rw [registered]
    exact coherent.withDecision hs fresh

theorem defineMode (name : String) (start : Option Nat) : Coherently (defineMode name start) := by
  intro net coherent
  rcases defineMode_cases coherent.numbered name start with
    ⟨e, refused⟩ | ⟨n, s, -, hs, kind, fresh, free, registered⟩
  · rw [refused]
    exact ⟨coherent, .refl net⟩
  · rw [registered]
    obtain ⟨decided, first⟩ := coherent.withDecision hs fresh
    have state := Network.get?_withDecision_of_some (n := n) hs
    rw [if_pos rfl] at state
    -- the starts of other modes were decisions before
    have new : ∀ (m : Nat) mode, net.modes[m]? = some mode → mode.start ≠ n := by
      rintro m mode entry rfl
      obtain ⟨s', hs', -, decision⟩ := coherent.modeStarts m mode entry
      rw [Option.some.inj (hs'.symm.trans hs), fresh] at decision
      cases decision
    obtain ⟨moded, second⟩ := decided.withMode state kind rfl free new
    exact ⟨moded, first.trans second⟩

theorem defineTokenType (rule tokenType : Int) : Coherently (defineTokenType rule tokenType) := by
  unfold Build.defineTokenType
  split
  · exact throw _
  · exact fun net coherent => coherent.withLexer (net.tokenTypes.insert rule.toNat tokenType) _

theorem addLexerAction (action : LexerAction) : Coherently (addLexerAction action) :=
  fun net coherent => coherent.withLexer _ (net.lexerActions.push action)

theorem callTransition (start follow : Option Nat) (precedence : Int) :
    Coherently (callTransition start follow precedence) :=
  lookup _

theorem construction (op : Construction) : Coherently op.run := by
  cases op with
  | createState kind rule => exact .bind (.createState kind rule) fun _ => .pure ()
  | reserveSlot => exact .bind .reserveSlot fun _ => .pure ()
  | addEdge source target label => exact .addTransition source _
  | addCall source start follow precedence =>
      exact .bind (.callTransition start follow precedence) fun _ => .addTransition source _
  | removeState state => exact .removeState state
  | defineRule start stop => exact .bind (.defineRule start stop) fun _ => .pure ()
  | defineDecision state => exact .bind (.defineDecision state) fun _ => .pure ()
  | defineMode name start => exact .bind (.defineMode name start) fun _ => .pure ()
  | defineTokenType rule tokenType => exact .defineTokenType rule tokenType
  | addLexerAction action => exact .bind (.addLexerAction action) fun _ => .pure ()

/-! The operations on fragments -/

theorem newRule : Coherently Fragment.newRule :=
  .bind (.lookup _) fun r =>
    .bind (.createState .ruleStart r) fun start =>
      .bind (.createState .ruleStop r) fun stop => .defineRule (some start) (some stop)

theorem setRuleBody (rule : Int) (body : Fragment) : Coherently (Fragment.setRuleBody rule body) :=
  .bind (.lookup _) fun _ => .bind (.connect _ _) fun _ => .connect _ _

theorem element (rule : Int) (label : Label) : Coherently (Fragment.element rule label) :=
  .bind (.createState .basic rule) fun _ =>
    .bind (.createState .basic rule) fun _ => .bind (.addTransition _ _) fun _ => .pure _

theorem ruleRef (rule callee precedence : Int) :
    Coherently (Fragment.ruleRef rule callee precedence) :=
  .bind (.lookup _) fun _ =>
    .bind (.createState .basic rule) fun _ =>
      .bind (.createState .basic rule) fun _ =>
        .bind (.callTransition _ _ precedence) fun _ =>
          .bind (.addTransition _ _) fun _ => .bind (.connect _ _) fun _ => .pure _

theorem joinFrom (last : Nat) (fragments : List Fragment) :
    Coherently (Fragment.joinFrom last fragments) := by
  induction fragments generalizing last with
  | nil => exact .pure last
  | cons f rest ih => exact .bind (.connect last f.entry) fun _ => ih f.exit

theorem sequence (fragments : List Fragment) : Coherently (Fragment.sequence fragments) := by
  cases fragments with
  | nil => exact .throw _
  | cons f rest => exact .bind (.joinFrom f.exit rest) fun _ => .pure _

theorem joinAlternatives (entry exit : Nat) (fragments : List Fragment) :
    Coherently (Fragment.joinAlternatives entry exit fragments) := by
  induction fragments with
  | nil => exact .pure ()
  | cons f rest ih =>
      exact .bind (.connect entry f.entry) fun _ => .bind (.connect f.exit exit) fun _ => ih

theorem alternatives (rule : Int) (fragments : List Fragment) :
    Coherently (Fragment.alternatives rule fragments) := by
  match fragments with
  | [] => exact .throw _
  | [f] => exact .pure f
  | f :: g :: rest =>
      exact .bind (.createState .blockStart rule) fun entry =>
        .bind (.createState .blockEnd rule) fun exit =>
          .bind (.joinAlternatives entry exit (f :: g :: rest)) fun _ =>
            .bind (.defineDecision (some entry)) fun _ => .pure _

theorem optional (rule : Int) (body : Fragment) : Coherently (Fragment.optional rule body) :=
  .bind (.createState .blockStart rule) fun _ =>
    .bind (.createState .blockEnd rule) fun _ =>
      .bind (.connect _ _) fun _ => .bind (.connect _ _) fun _ => .bind (.connect _ _) fun _ =>
        .bind (.defineDecision _) fun _ => .pure _

theorem star (rule : Int) (body : Fragment) : Coherently (Fragment.star rule body) :=
  .bind (.createState .starLoopEntry rule) fun _ =>
    .bind (.createState .starBlockStart rule) fun _ =>
      .bind (.createState .blockEnd rule) fun _ =>
        .bind (.createState .starLoopBack rule) fun _ =>
          .bind (.createState .loopEnd rule) fun _ =>
            .bind (.connect _ _) fun _ => .bind (.connect _ _) fun _ => .bind (.connect _ _) fun _ =>
              .bind (.connect _ _) fun _ => .bind (.connect _ _) fun _ =>
                .bind (.connect _ _) fun _ =>
                  .bind (.defineDecision _) fun _ => .bind (.defineDecision _) fun _ => .pure _

theorem plus (rule : Int) (body : Fragment) : Coherently (Fragment.plus rule body) :=
  .bind (.createState .plusBlockStart rule) fun _ =>
    .bind (.createState .blockEnd rule) fun _ =>
      .bind (.createState .plusLoopBack rule) fun _ =>
        .bind (.createState .loopEnd rule) fun _ =>
          .bind (.connect _ _) fun _ => .bind (.connect _ _) fun _ => .bind (.connect _ _) fun _ =>
            .bind (.connect _ _) fun _ => .bind (.connect _ _) fun _ =>
              .bind (.defineDecision _) fun _ => .bind (.defineDecision _) fun _ => .pure _

theorem joinRules (source : Nat) (rules : List Int) :
    Coherently (Fragment.joinRules source rules) := by
  induction rules with
  | nil => exact .pure ()
  | cons r rest ih => exact .bind (.lookup _) fun _ => .bind (.connect source _) fun _ => ih

theorem newMode (name : String) (rules : List Int) : Coherently (Fragment.newMode name rules) :=
  .bind (.createState .tokenStart (-1)) fun start =>
    .bind (.joinRules start rules) fun _ =>
      .bind (.defineMode name (some start)) fun _ => .pure start

theorem operation (op : Operation) : Coherently op.run := by
  cases op with
  | newRule => exact .bind .newRule fun _ => .pure []
  | newLexerRule tokenType =>
      exact .bind (.bind .newRule fun _ => .bind (.defineTokenType _ _) fun _ => .pure _)
        fun _ => .pure []
  | setRuleBody r body => exact .bind (.setRuleBody r body) fun _ => .pure []
  | element r label => exact .bind (.element r label) fun f => .pure [f]
  | ruleRef r callee precedence => exact .bind (.ruleRef r callee precedence) fun f => .pure [f]
  | sequence r fragments => exact .bind (.sequence fragments) fun f => .pure [f]
  | alternatives r fragments => exact .bind (.alternatives r fragments) fun f => .pure [f]
  | optional r body => exact .bind (.optional r body) fun f => .pure [f]
  | star r body => exact .bind (.star r body) fun f => .pure [f]
  | plus r body => exact .bind (.plus r body) fun f => .pure [f]
  | newMode name rules => exact .bind (.newMode name rules) fun _ => .pure []

end Coherently

end Build

/-! ### Building -/

namespace Network

variable {net : Network}

/-- With nothing registered, nothing disagrees. -/
theorem coherent_start (grammar : GrammarKind) (maxSymbol : Int) :
    Coherent { grammar, maxSymbol } where
  numbered := fun n s hs => by simp [get?] at hs
  decision_iff := fun d n => by simp [get?]
  decisionDfas := by simp
  rules := fun r rule entry => by simp at entry
  modeStarts := fun m mode entry => by simp at entry
  named := fun m mode entry => by simp at entry
  modesDiffer := fun m m' mode mode' entry => by simp at entry
  modeDfas := by simp

/-- A step keeps the registries coherent and keeps what is in them. -/
theorem Coherent.apply (coherent : net.Coherent) (step : BuildStep) :
    (step.apply net).Coherent ∧ net.Kept (step.apply net) := by
  cases step with
  | network op => exact Coherently.construction op net coherent
  | fragments op => exact Coherently.operation op net coherent

/-- So do any number of steps. -/
theorem Coherent.build (coherent : net.Coherent) (steps : List BuildStep) :
    (net.build steps).Coherent ∧ net.Kept (net.build steps) := by
  induction steps generalizing net with
  | nil => exact ⟨coherent, .refl net⟩
  | cons step steps ih =>
      obtain ⟨next, first⟩ := coherent.apply step
      obtain ⟨last, rest⟩ := ih next
      exact ⟨last, first.trans rest⟩

/-- Whatever steps a network is built by, its registries agree with its states and with each other,
and what is registered at one moment is registered in the same place at any later moment. -/
theorem coherent_of_build (grammar : GrammarKind) (maxSymbol : Int) (before after : List BuildStep) :
    let net := build { grammar, maxSymbol } before
    net.Coherent ∧ (net.build after).Coherent ∧ net.Kept (net.build after) := by
  obtain ⟨coherent, -⟩ := (coherent_start grammar maxSymbol).build before
  exact ⟨coherent, coherent.build after⟩

end Network

end GrammarNet
