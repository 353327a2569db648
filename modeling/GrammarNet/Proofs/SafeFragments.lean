import GrammarNet.Proofs.SafeWork

/-!
The operations on fragments keep a network wired.

There is one lemma for each operation, whether it succeeds or is refused. The operations that work
inside of a rule are shown by going through their steps with the lemmas of `Build.Safe`. A new rule
is made of two states at once, since an end of a rule has to be registered (`withRule`).
-/

namespace GrammarNet

open Build

/-- The states at which a fragment is joined with others. -/
def Fragment.ends (f : Fragment) : List Nat :=
  [f.entry, f.exit]

namespace Fragment

variable {base : Network} {r : Int} {ns : List Nat}

/-! ### Elements and combinations -/

theorem element_safe {label : Label} (plain : label.follow? = none) :
    Safe base r ns (element r label) ends := by
  apply Safe.newState (by decide)
  intro entry
  apply Safe.newState (by decide)
  intro exit
  refine .bind (.edge (by simp) (by simp) plain) fun _ => .pure ?_
  simp [ends]

theorem joinFrom_safe {last : Nat} {fragments : List Fragment} (known : last ∈ ns)
    (parts : ∀ f ∈ fragments, f.entry ∈ ns ∧ f.exit ∈ ns) :
    Safe base r ns (joinFrom last fragments) fun exit => [exit] := by
  induction fragments generalizing last with
  | nil => exact .pure (by simpa using known)
  | cons f rest ih =>
      obtain ⟨entry, exit⟩ := parts f List.mem_cons_self
      apply Safe.next (.connect known entry)
      exact ih exit fun g hg => parts g (List.mem_cons_of_mem f hg)

theorem sequence_safe {fragments : List Fragment}
    (parts : ∀ f ∈ fragments, f.entry ∈ ns ∧ f.exit ∈ ns) :
    Safe base r ns (sequence fragments) ends := by
  cases fragments with
  | nil => exact .throw
  | cons f rest =>
      obtain ⟨entry, exit⟩ := parts f List.mem_cons_self
      apply Safe.bind (joinFrom_safe exit fun g hg => parts g (List.mem_cons_of_mem f hg))
      intro last
      refine .pure ?_
      simp [ends, entry]

theorem joinAlternatives_safe {entry exit : Nat} {fragments : List Fragment} (first : entry ∈ ns)
    (last : exit ∈ ns) (parts : ∀ f ∈ fragments, f.entry ∈ ns ∧ f.exit ∈ ns) :
    Safe base r ns (joinAlternatives entry exit fragments) fun _ => [] := by
  induction fragments with
  | nil => exact .pure (by simp)
  | cons f rest ih =>
      obtain ⟨before, after⟩ := parts f List.mem_cons_self
      apply Safe.next (.connect first before)
      apply Safe.next (.connect after last)
      exact ih fun g hg => parts g (List.mem_cons_of_mem f hg)

theorem alternatives_safe {fragments : List Fragment}
    (parts : ∀ f ∈ fragments, f.entry ∈ ns ∧ f.exit ∈ ns) :
    Safe base r ns (alternatives r fragments) ends := by
  match fragments with
  | [] => exact .throw
  | [f] => exact .pure (by simpa [ends] using parts f List.mem_cons_self)
  | f :: g :: rest =>
      apply Safe.newState (by decide)
      intro entry
      apply Safe.newState (by decide)
      intro exit
      have parts' : ∀ h ∈ f :: g :: rest, h.entry ∈ exit :: entry :: ns ∧
          h.exit ∈ exit :: entry :: ns := by
        intro h mem
        obtain ⟨before, after⟩ := parts h mem
        simp [before, after]
      apply Safe.next (joinAlternatives_safe (by simp) (by simp) parts')
      exact .bind .defineDecision fun _ => .pure (by simp [ends])

theorem optional_safe {body : Fragment} (entry : body.entry ∈ ns) (exit : body.exit ∈ ns) :
    Safe base r ns (optional r body) ends := by
  apply Safe.newState (by decide)
  intro first
  apply Safe.newState (by decide)
  intro last
  apply Safe.next (.connect (by simp) (by simp [entry]))
  apply Safe.next (.connect (by simp) (by simp))
  apply Safe.next (.connect (by simp [exit]) (by simp))
  exact .bind .defineDecision fun _ => .pure (by simp [ends])

theorem star_safe {body : Fragment} (entry : body.entry ∈ ns) (exit : body.exit ∈ ns) :
    Safe base r ns (star r body) ends := by
  apply Safe.newState (by decide)
  intro first
  apply Safe.newState (by decide)
  intro blockStart
  apply Safe.newState (by decide)
  intro blockEnd
  apply Safe.newState (by decide)
  intro loopBack
  apply Safe.newState (by decide)
  intro last
  apply Safe.next (.connect (by simp) (by simp))
  apply Safe.next (.connect (by simp) (by simp))
  apply Safe.next (.connect (by simp) (by simp [entry]))
  apply Safe.next (.connect (by simp [exit]) (by simp))
  apply Safe.next (.connect (by simp) (by simp))
  apply Safe.next (.connect (by simp) (by simp))
  exact .bind .defineDecision fun _ => .bind .defineDecision fun _ => .pure (by simp [ends])

theorem plus_safe {body : Fragment} (entry : body.entry ∈ ns) (exit : body.exit ∈ ns) :
    Safe base r ns (plus r body) ends := by
  apply Safe.newState (by decide)
  intro blockStart
  apply Safe.newState (by decide)
  intro blockEnd
  apply Safe.newState (by decide)
  intro loopBack
  apply Safe.newState (by decide)
  intro last
  apply Safe.next (.connect (by simp) (by simp [entry]))
  apply Safe.next (.connect (by simp [exit]) (by simp))
  apply Safe.next (.connect (by simp) (by simp))
  apply Safe.next (.connect (by simp) (by simp))
  apply Safe.next (.connect (by simp) (by simp))
  exact .bind .defineDecision fun _ => .bind .defineDecision fun _ => .pure (by simp [ends])

/-! ### Bodies and calls of rules -/

theorem rule_eq_ok_iff {net : Network} {rule : Int} {boundary : Rule} :
    net.rule rule = .ok boundary ↔ 0 ≤ rule ∧ net.rules[rule.toNat]? = some boundary := by
  unfold Network.rule entryAt?
  split
  · next found =>
      split at found
      · cases found
      · next nonneg =>
          rw [found]
          simp
          omega
  · next absent =>
      split at absent
      · simp
        omega
      · simp [absent]

/-- The boundary of a rule that is looked up. -/
theorem bounds_of_rule {net : Network} {rule : Int} {boundary : Rule} (wired : net.Wired)
    (found : net.rule rule = .ok boundary) :
    net.Bounds rule boundary ∧ net.startOf? rule = some boundary.start := by
  obtain ⟨nonneg, entry⟩ := rule_eq_ok_iff.mp found
  have bounds := wired.bounds rule.toNat boundary entry
  rw [Int.toNat_of_nonneg nonneg] at bounds
  exact ⟨bounds, Network.startOf?_eq_some_iff.mpr ⟨nonneg, boundary, entry, rfl⟩⟩

theorem setRuleBody_safe {body : Fragment} (entry : body.entry ∈ ns) (exit : body.exit ∈ ns) :
    Safe base r ns (setRuleBody r body) fun _ => [] := by
  apply Safe.lookup
  intro net boundary _ wired _ found
  obtain ⟨bounds, -⟩ := bounds_of_rule wired found
  have enter : Safe net r ns (connect boundary.start body.entry) fun _ => [] := by
    apply Safe.addTransition
    intro net' grown inner
    have target := (inner body.entry entry).ofRule
    exact admits_of_inner (bounds.mono grown).inner_start (staysIn_of_plain rfl target)
  have leave : Safe net r ns (connect body.exit boundary.stop) fun _ => [] := by
    apply Safe.addTransition
    intro net' grown inner
    have target := (bounds.mono grown).ofRule_stop
    exact admits_of_inner (inner body.exit exit) (staysIn_of_plain rfl target)
  exact .next enter leave

theorem ruleRef_safe {callee precedence : Int} :
    Safe base r ns (ruleRef r callee precedence) ends := by
  apply Safe.lookup
  intro net boundary _ wired _ found
  obtain ⟨bounds, starts⟩ := bounds_of_rule wired found
  apply Safe.newState (by decide)
  intro entry
  apply Safe.newState (by decide)
  intro follow
  apply Safe.lookup
  intro net' call grown wired' _ made
  -- the call leads to the start of the callee
  obtain ⟨s, hs, kind, number⟩ := (bounds.mono grown).start
  have called : call = ⟨boundary.start, .call follow callee precedence⟩ := by
    have label : call = ⟨s.number, .call follow s.rule precedence⟩ := by
      simpa [hs, kind] using made.symm
    rw [label, number, wired'.numbered _ s hs]
  have enter : Safe net' r (follow :: entry :: ns) (addTransition entry call) fun _ => [] := by
    apply Safe.addTransition
    intro net'' grown' inner
    have starts' := Network.startOf?_mono (Network.startOf?_mono starts grown) grown'
    have there := (inner follow (by simp)).ofRule
    rw [called]
    exact admits_of_inner (inner entry (by simp))
      (((bounds.mono grown).mono grown').staysIn_call starts' there)
  have leave : Safe net' r (follow :: entry :: ns) (connect boundary.stop follow) fun _ => [] := by
    apply Safe.addTransition
    intro net'' grown' inner
    exact ((bounds.mono grown).mono grown').admits_return (inner follow (by simp)).ofRule
  exact .next enter (.next leave (.pure (by simp [ends])))

/-! ### Modes -/

theorem joinRules_safe {source : Nat} {rules : List Int}
    (entry : base.kindAt? source = some .tokenStart) :
    Safe base r ns (joinRules source rules) fun _ => [] := by
  induction rules generalizing base with
  | nil => exact .pure (by simp)
  | cons rule rest ih =>
      apply Safe.lookup
      intro net boundary grown wired _ found
      have entry' := Network.kindAt?_mono entry grown
      obtain ⟨nonneg, registered⟩ := rule_eq_ok_iff.mp found
      have bounds := wired.bounds rule.toNat boundary registered
      have lead : Safe net r ns (connect source boundary.start) fun _ => [] := by
        apply Safe.addTransition
        intro net' grown' inner
        obtain ⟨s, hs, kind⟩ := Option.map_eq_some_iff.mp (Network.kindAt?_mono entry' grown')
        refine ⟨s, hs, ?_⟩
        simp only [Network.Admits, kind]
        exact ⟨rfl, rule.toNat, boundary, grown'.rules _ _ registered, rfl,
          (bounds.mono grown').inner_start.ofRule⟩
      exact .next lead (ih entry')

theorem defineMode_safe {name : String} {start : Option Nat} :
    Safe base r ns (defineMode name start) fun _ => [] := by
  apply Safe.lookup
  rintro net ⟨m, n⟩ - - - -
  refine .next (.modify fun net => ⟨fun _ => rfl, rfl⟩) ?_
  exact .bind .defineDecision fun _ => .pure (by simp)

theorem newMode_safe {name : String} {rules : List Int} :
    Safe base r ns (newMode name rules) fun _ => [] := by
  apply Safe.step
  intro net _ wired _
  refine ⟨wired.pushState (by decide), net.extends_pushState .tokenStart (-1), ?_⟩
  intro start made
  cases made
  have entry : (net.pushState .tokenStart (-1)).kindAt? net.states.size = some .tokenStart :=
    Option.map_eq_some_iff.mpr ⟨_, net.get?_pushState_self .tokenStart (-1), rfl⟩
  exact .next (joinRules_safe entry) (.bind defineMode_safe fun _ => .pure (by simp))

/-! ### New rules -/

/-- The network with the next rule registered. -/
def register (net : Network) (start stop : Nat) : Network :=
  { net.modifyState start fun s => { s with stop := some stop } with
    rules := net.rules.push ⟨start, stop⟩ }

theorem exec_defineRule {net : Network} {start stop : Nat} {s e : State}
    (hs : net.get? start = some s) (he : net.get? stop = some e) (kindS : s.kind = .ruleStart)
    (kindE : e.kind = .ruleStop) (ruleS : s.rule = net.rules.size)
    (ruleE : e.rule = net.rules.size) :
    exec (defineRule (some start) (some stop)) net =
      (.ok net.rules.size, register net s.number e.number) := by
  unfold defineRule
  rw [exec_bind, exec_lookup]
  simp only [Option.bind_some, hs, he, kindS, kindE, ruleS, ruleE, and_self, if_true]
  rfl

/-- The network with the boundary states of the next rule. -/
def withBounds (net : Network) : Network :=
  (net.pushState .ruleStart net.rules.size).pushState .ruleStop net.rules.size

theorem get?_withBounds (net : Network) (m : Nat) :
    (withBounds net).get? m =
      if m = net.states.size + 1 then
        some { number := m, kind := .ruleStop, rule := net.rules.size }
      else if m = net.states.size then
        some { number := m, kind := .ruleStart, rule := net.rules.size }
      else net.get? m := by
  have size : (net.pushState .ruleStart net.rules.size).states.size = net.states.size + 1 :=
    Array.size_push _
  rw [withBounds, Network.get?_pushState, Network.get?_pushState, size]

theorem extends_register (net : Network) (start stop : Nat) :
    net.Extends (register net start stop) where
  states := by
    have marked : net.Alike (net.modifyState start fun s => { s with stop := some stop }) :=
      net.alike_modifyState start fun _ => rfl
    exact marked.extends.states
  rules := by
    intro i rule entry
    have old : i ≠ net.rules.size := by
      rintro rfl
      simp at entry
    rw [register, Array.getElem?_push, if_neg old, entry]

/-- The network with one more rule, whose boundary states are new. -/
def withRule (net : Network) : Network :=
  register (withBounds net) net.states.size (net.states.size + 1)

theorem get?_withRule (net : Network) (m : Nat) :
    (withRule net).get? m =
      if m = net.states.size + 1 then
        some { number := m, kind := .ruleStop, rule := net.rules.size }
      else if m = net.states.size then
        some
          { number := m, kind := .ruleStart, rule := net.rules.size
            stop := some (net.states.size + 1) }
      else net.get? m := by
  refine (Network.get?_modifyState ..).trans ?_
  rw [get?_withBounds]
  by_cases start : m = net.states.size
  · subst start
    simp
  · have other : net.states.size ≠ m := fun h => start h.symm
    simp [start, other]

theorem rules_withRule (net : Network) (i : Nat) :
    (withRule net).rules[i]? =
      if i = net.rules.size then some ⟨net.states.size, net.states.size + 1⟩ else net.rules[i]? :=
  Array.getElem?_push

theorem extends_withRule (net : Network) : net.Extends (withRule net) :=
  ((net.extends_pushState _ _).trans (Network.extends_pushState _ _ _)).trans
    (extends_register _ _ _)

theorem bounds_withRule (net : Network) :
    (withRule net).Bounds net.rules.size ⟨net.states.size, net.states.size + 1⟩ where
  start := by
    have start := get?_withRule net net.states.size
    rw [if_neg (by omega), if_pos rfl] at start
    exact ⟨_, start, rfl, rfl⟩
  stop := ⟨_, (get?_withRule net (net.states.size + 1)).trans (if_pos rfl), rfl, rfl⟩

theorem wired_withRule {net : Network} (wired : net.Wired) : (withRule net).Wired := by
  have registered : (withRule net).startOf? net.rules.size = some net.states.size :=
    Network.startOf?_eq_some_iff.mpr
      ⟨by omega, _, (rules_withRule net net.rules.size).trans (if_pos rfl), rfl⟩
  apply wired.grow (extends_withRule net)
  · intro m s' hs'
    rw [get?_withRule] at hs'
    split at hs'
    · cases hs'
      refine .inr ⟨rfl, rfl, fun _ => ?_⟩
      rw [registered]
      rfl
    · split at hs'
      · cases hs'
        exact .inr ⟨rfl, rfl, fun stop => nomatch stop⟩
      · exact .inl ⟨s', hs', rfl⟩
  · intro i rule entry
    rw [rules_withRule] at entry
    split at entry
    · next last =>
        cases entry
        subst last
        exact .inr (bounds_withRule net)
    · exact .inl entry

theorem exec_newRule (net : Network) :
    exec newRule net = (.ok net.rules.size, withRule net) := by
  have size : (net.pushState .ruleStart net.rules.size).states.size = net.states.size + 1 :=
    Array.size_push _
  have start := get?_withBounds net net.states.size
  have stop := get?_withBounds net (net.states.size + 1)
  rw [if_neg (by omega), if_pos rfl] at start
  rw [if_pos rfl] at stop
  unfold newRule
  simp only [exec_bind, exec_lookup, exec_createState, size]
  exact exec_defineRule start stop rfl rfl rfl rfl

theorem newRule_safe : Safe base r ns newRule fun _ => [] := by
  intro net _ wired _
  rw [exec_newRule]
  exact ⟨wired_withRule wired, extends_withRule net, fun _ _ _ hn => nomatch hn⟩

theorem defineTokenType_safe {rule tokenType : Int} :
    Safe base r ns (defineTokenType rule tokenType) fun _ => [] := by
  unfold defineTokenType
  split
  · exact .throw
  · exact .modify fun net => ⟨fun _ => rfl, rfl⟩

theorem newLexerRule_safe {tokenType : Int} :
    Safe base r ns (newLexerRule tokenType) fun _ => [] := by
  refine .bind newRule_safe fun rule => .bind defineTokenType_safe fun _ => .pure ?_
  simp

end Fragment

end GrammarNet
