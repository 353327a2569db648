import GrammarNet.Proofs.AddedEdges

/-!
The states and edges that the operations on fragments add to a network.

An operation makes some states behind the last slot, adds some edges and registers decisions. For
each operation there is one equation, which says what it gives and how the network is laid out
afterwards (`exec_optional` and the like). For those that make a fragment, `Operation.Lays` says
the same of `Operation.run`. A new rule adds no edges (`Ruled`), and a mode adds edges at its start
only, whatever becomes of it (`grown_newMode`).
-/

namespace GrammarNet

open Build

namespace Fragment

open Network

variable {net : Network} {r : Int}

theorem exec_element (label : Label) :
    exec (element r label) net = (.ok ⟨net.states.size, net.states.size + 1⟩,
      net.layout r [.basic, .basic] [(net.states.size, ⟨net.states.size + 1, label⟩)]) := by
  simp only [element, exec_bind, exec_createState, exec_addTransition, exec_pure, size_pushState,
    layout_state, layout_edge, layout_nil]

/-- The edges of an optional piece with the entry `k`. -/
def optionalEdges (k : Nat) (body : Fragment) : List (Nat × Transition) :=
  [(k, .epsilon body.entry), (k, .epsilon (k + 1)), (body.exit, .epsilon (k + 1))]

theorem exec_optional (body : Fragment) :
    exec (optional r body) net = (.ok ⟨net.states.size, net.states.size + 1⟩,
      (net.layout r [.blockStart, .blockEnd]
        (optionalEdges net.states.size body)).withDecision net.states.size) := by
  have decided := exec_defineDecision_of_undecided
    (net.layout_undecided r (optionalEdges net.states.size body) 0
      (rfl : [StateKind.blockStart, .blockEnd][0]? = _) rfl)
  simp only [optionalEdges, layout_state, layout_edge, layout_nil, Nat.add_zero] at decided ⊢
  simp only [optional, exec_bind, exec_createState, exec_connect, size_pushState, decided,
    exec_pure]

/-- The edges of a loop with the entry `k` that may be passed by. -/
def starEdges (k : Nat) (body : Fragment) : List (Nat × Transition) :=
  [(k, .epsilon (k + 1)), (k, .epsilon (k + 4)), (k + 1, .epsilon body.entry),
    (body.exit, .epsilon (k + 2)), (k + 2, .epsilon (k + 3)), (k + 3, .epsilon k)]

theorem exec_star (body : Fragment) :
    exec (star r body) net = (.ok ⟨net.states.size, net.states.size + 4⟩,
      ((net.layout r [.starLoopEntry, .starBlockStart, .blockEnd, .starLoopBack, .loopEnd]
        (starEdges net.states.size body)).withDecision net.states.size).withDecision
          (net.states.size + 1)) := by
  have first := net.layout_undecided r (starEdges net.states.size body) 0
    (rfl : [StateKind.starLoopEntry, .starBlockStart, .blockEnd, .starLoopBack, .loopEnd][0]? = _)
    rfl
  have second := net.layout_undecided r (starEdges net.states.size body) 1
    (rfl : [StateKind.starLoopEntry, .starBlockStart, .blockEnd, .starLoopBack, .loopEnd][1]? = _)
    rfl
  have decided := exec_defineDecision_of_undecided first
  have decided' := exec_defineDecision_of_undecided
    (second.withDecision (m := net.states.size) (by omega))
  simp only [starEdges, layout_state, layout_edge, layout_nil, Nat.add_zero] at decided decided' ⊢
  simp only [star, exec_bind, exec_createState, exec_connect, size_pushState, Nat.add_assoc,
    Nat.reduceAdd, decided, decided', exec_pure]

/-- The edges of a loop with the entry `k` that is gone through once or more often. -/
def plusEdges (k : Nat) (body : Fragment) : List (Nat × Transition) :=
  [(k, .epsilon body.entry), (body.exit, .epsilon (k + 1)), (k + 1, .epsilon (k + 2)),
    (k + 2, .epsilon k), (k + 2, .epsilon (k + 3))]

theorem exec_plus (body : Fragment) :
    exec (plus r body) net = (.ok ⟨net.states.size, net.states.size + 3⟩,
      ((net.layout r [.plusBlockStart, .blockEnd, .plusLoopBack, .loopEnd]
        (plusEdges net.states.size body)).withDecision net.states.size).withDecision
          (net.states.size + 2)) := by
  have first := net.layout_undecided r (plusEdges net.states.size body) 0
    (rfl : [StateKind.plusBlockStart, .blockEnd, .plusLoopBack, .loopEnd][0]? = _) rfl
  have second := net.layout_undecided r (plusEdges net.states.size body) 2
    (rfl : [StateKind.plusBlockStart, .blockEnd, .plusLoopBack, .loopEnd][2]? = _) rfl
  have decided := exec_defineDecision_of_undecided first
  have decided' := exec_defineDecision_of_undecided
    (second.withDecision (m := net.states.size) (by omega))
  simp only [plusEdges, layout_state, layout_edge, layout_nil, Nat.add_zero] at decided decided' ⊢
  simp only [plus, exec_bind, exec_createState, exec_connect, size_pushState, Nat.add_assoc,
    Nat.reduceAdd, decided, decided', exec_pure]

/-- The edges that join each fragment with the next. -/
def joints (f : Fragment) : List Fragment → List (Nat × Transition)
  | [] => []
  | g :: rest => (f.exit, .epsilon g.entry) :: joints g rest

/-- The joints begin at the ends of the fragments, but for the last. -/
theorem sources_joints (f : Fragment) (rest : List Fragment) :
    (joints f rest).map Prod.fst ++ [(rest.getLastD f).exit] = (f :: rest).map exit := by
  induction rest generalizing f with
  | nil => rfl
  | cons g rest ih =>
      rw [joints, List.getLastD_cons, List.map_cons, List.cons_append, ih g]
      rfl

theorem exists_exit_of_joint {f : Fragment} {rest : List Fragment} {e : Nat × Transition}
    (mem : e ∈ joints f rest) : ∃ g ∈ f :: rest, g.exit = e.1 := by
  refine List.mem_map.mp ?_
  rw [← sources_joints]
  exact List.mem_append_left _ (List.mem_map_of_mem mem)

theorem exec_sequence (f : Fragment) (rest : List Fragment) :
    exec (sequence (f :: rest)) net =
      (.ok ⟨f.entry, (rest.getLastD f).exit⟩, net.addEdges (joints f rest)) := by
  have joined : exec (joinFrom f.exit rest) net =
      (.ok (rest.getLastD f).exit, net.addEdges (joints f rest)) := by
    induction rest generalizing net f with
    | nil => rfl
    | cons g rest ih =>
        simp only [joinFrom, exec_bind, exec_connect, ih g, List.getLastD_cons]
        rfl
  rw [sequence, exec_bind, joined]
  rfl

/-- The edges that join each fragment between two states. -/
def branches (entry exit : Nat) : List Fragment → List (Nat × Transition)
  | [] => []
  | f :: rest => (entry, .epsilon f.entry) :: (f.exit, .epsilon exit) :: branches entry exit rest

theorem source_of_branch {entry exit : Nat} {fragments : List Fragment} {e : Nat × Transition}
    (mem : e ∈ branches entry exit fragments) :
    e.1 = entry ∨ ∃ f ∈ fragments, f.exit = e.1 := by
  induction fragments with
  | nil => cases mem
  | cons f rest ih =>
      rcases List.mem_cons.mp mem with rfl | mem
      · exact .inl rfl
      · rcases List.mem_cons.mp mem with rfl | mem
        · exact .inr ⟨f, List.mem_cons_self, rfl⟩
        · exact (ih mem).imp_right fun ⟨g, part, here⟩ => ⟨g, List.mem_cons_of_mem f part, here⟩

theorem exit_mem_branches (entry exit : Nat) {fragments : List Fragment} {f : Fragment}
    (mem : f ∈ fragments) : f.exit ∈ (branches entry exit fragments).map Prod.fst := by
  induction fragments with
  | nil => cases mem
  | cons g rest ih =>
      rcases List.mem_cons.mp mem with rfl | mem
      · simp [branches]
      · exact List.mem_cons_of_mem _ (List.mem_cons_of_mem _ (ih mem))

/-- The edges to the fragments. -/
theorem edgesFrom_branches_entry {entry exit : Nat} {fragments : List Fragment}
    (apart : ∀ f ∈ fragments, f.exit ≠ entry) :
    edgesFrom (branches entry exit fragments) entry = fragments.map fun f => .epsilon f.entry := by
  induction fragments with
  | nil => rfl
  | cons f rest ih =>
      rw [List.forall_mem_cons] at apart
      simp [branches, apart.1, ih apart.2]

/-- The edge from a fragment. -/
theorem edgesFrom_branches_exit {entry exit : Nat} {fragments : List Fragment} {f : Fragment}
    (nodup : (fragments.map Fragment.exit).Nodup) (apart : ∀ g ∈ fragments, g.exit ≠ entry)
    (mem : f ∈ fragments) :
    edgesFrom (branches entry exit fragments) f.exit = [.epsilon exit] := by
  induction fragments with
  | nil => cases mem
  | cons g rest ih =>
      rw [List.map_cons, List.nodup_cons] at nodup
      rw [List.forall_mem_cons] at apart
      have other : entry ≠ f.exit := by
        rcases List.mem_cons.mp mem with rfl | mem
        · exact apart.1.symm
        · exact (apart.2 f mem).symm
      rw [branches, edgesFrom_cons, if_neg other, edgesFrom_cons]
      rcases List.mem_cons.mp mem with rfl | mem
      · have none : edgesFrom (branches entry exit rest) f.exit = [] := by
          refine edgesFrom_eq_nil fun e source here => ?_
          rcases source_of_branch source with first | ⟨g, part, last⟩
          · exact other (first.symm.trans here)
          · exact nodup.1 (List.mem_map.mpr ⟨g, part, last.trans here⟩)
        rw [if_pos rfl, none]
      · have distinct : g.exit ≠ f.exit := fun same =>
          nodup.1 (List.mem_map.mpr ⟨f, mem, same.symm⟩)
        rw [if_neg distinct]
        exact ih nodup.2 apart.2 mem

theorem exec_joinAlternatives (entry exit : Nat) (fragments : List Fragment) :
    exec (joinAlternatives entry exit fragments) net =
      (.ok (), net.addEdges (branches entry exit fragments)) := by
  induction fragments generalizing net with
  | nil => rfl
  | cons f rest ih =>
      simp only [joinAlternatives, exec_bind, exec_connect]
      exact ih

theorem exec_alternatives (f g : Fragment) (rest : List Fragment) :
    exec (alternatives r (f :: g :: rest)) net =
      (.ok ⟨net.states.size, net.states.size + 1⟩,
        (net.layout r [.blockStart, .blockEnd] (branches net.states.size (net.states.size + 1)
          (f :: g :: rest))).withDecision net.states.size) := by
  have decided := exec_defineDecision_of_undecided
    (net.layout_undecided r (branches net.states.size (net.states.size + 1) (f :: g :: rest)) 0
      (rfl : [StateKind.blockStart, .blockEnd][0]? = _) rfl)
  have shape : ∀ added, net.layout r [.blockStart, .blockEnd] added =
      ((net.pushState .blockStart r).pushState .blockEnd r).addEdges added := fun _ => rfl
  simp only [shape, Nat.add_zero] at decided ⊢
  simp only [alternatives, exec_bind, exec_createState, exec_joinAlternatives, size_pushState,
    decided, exec_pure]

/-! ### Calls and bodies of rules -/

/-- The edge of a call with the entry `k`. -/
def callEdges (k : Nat) (boundary : Rule) (callee precedence : Int) : List (Nat × Transition) :=
  [(k, ⟨boundary.start, .call (k + 1) callee precedence⟩)]

/-- A call of a rule whose start state carries the number of the rule. -/
theorem exec_ruleRef_of_start (numbered : net.All fun n s => s.number = n)
    {callee precedence : Int} {boundary : Rule} (found : net.rule callee = .ok boundary)
    (starts : ∃ s, net.get? boundary.start = some s ∧ s.kind = .ruleStart ∧ s.rule = callee) :
    exec (ruleRef r callee precedence) net = (.ok ⟨net.states.size, net.states.size + 1⟩,
      (net.layout r [.basic, .basic] (callEdges net.states.size boundary callee precedence))
        |>.addTransition boundary.stop (.epsilon (net.states.size + 1))) := by
  obtain ⟨s, hs, kind, rule⟩ := starts
  have start : (net.pushStates r [.basic, .basic]).get? boundary.start = some s := by
    rw [get?_pushStates_of_lt (Lookahead.lt_size_of_get? hs), hs]
  have call : exec (callTransition (some boundary.start) (some (net.states.size + 1)) precedence)
      (net.pushStates r [.basic, .basic]) =
        (.ok ⟨boundary.start, .call (net.states.size + 1) callee precedence⟩,
          net.pushStates r [.basic, .basic]) := by
    simp only [callTransition, exec_lookup, Option.bind_some, start, if_pos kind, rule,
      numbered _ s hs]
  have shape : net.pushStates r [.basic, .basic] =
      (net.pushState .basic r).pushState .basic r := rfl
  rw [shape] at call
  simp only [ruleRef, exec_bind, exec_lookup, found, exec_createState, size_pushState, call,
    exec_addTransition, exec_connect, exec_pure]
  rfl

theorem exec_ruleRef (wired : net.Wired) {callee precedence : Int} {boundary : Rule}
    (found : net.rule callee = .ok boundary) :
    exec (ruleRef r callee precedence) net = (.ok ⟨net.states.size, net.states.size + 1⟩,
      (net.layout r [.basic, .basic] (callEdges net.states.size boundary callee precedence))
        |>.addTransition boundary.stop (.epsilon (net.states.size + 1))) :=
  exec_ruleRef_of_start wired.numbered found (bounds_of_rule wired found).1.start

theorem exec_ruleRef_of_error {callee precedence : Int} {e : NetworkError}
    (absent : net.rule callee = .error e) :
    exec (ruleRef r callee precedence) net = (.error e, net) := by
  simp only [ruleRef, exec_bind, exec_lookup, absent]

/-- The edges by which a fragment becomes the body of a rule. -/
def bodyEdges (boundary : Rule) (body : Fragment) : List (Nat × Transition) :=
  [(boundary.start, .epsilon body.entry), (body.exit, .epsilon boundary.stop)]

theorem exec_setRuleBody {boundary : Rule} (found : net.rule r = .ok boundary) (body : Fragment) :
    exec (setRuleBody r body) net = (.ok (), net.addEdges (bodyEdges boundary body)) := by
  simp only [setRuleBody, exec_bind, exec_lookup, found, exec_connect]
  rfl

theorem exec_setRuleBody_of_error {e : NetworkError} (absent : net.rule r = .error e)
    (body : Fragment) : exec (setRuleBody r body) net = (.error e, net) := by
  simp only [setRuleBody, exec_bind, exec_lookup, absent]

end Fragment

namespace Network

variable {net net' : Network}

/-- The edges by which an end of a rule returns do not count. -/
theorem grown_return {n : Nat} (stop : net.kindAt? n = some .ruleStop) (t : Transition) :
    Grown net (net.addTransition n t) 0 [] where
  size := Array.size_modify
  rules := rfl
  grammar := rfl
  maxSymbol := rfl
  ways := by
    intro m
    rw [edgesFrom_nil, List.append_nil, ways, ways, get?_addTransition]
    split
    · next here =>
        subst here
        obtain ⟨s, hs, kind⟩ := Option.map_eq_some_iff.mp stop
        rw [hs]
        simp [State.onward, kind]
    · rfl

/-! ### Rules and modes -/

/-- The network has one more rule, whose boundary states are new. -/
structure Ruled (net net' : Network) : Prop where
  size : net'.states.size = net.states.size + 2
  rules : net'.rules = net.rules.push ⟨net.states.size, net.states.size + 1⟩
  grammar : net'.grammar = net.grammar
  maxSymbol : net'.maxSymbol = net.maxSymbol
  ways : ∀ n, net'.ways n = net.ways n

theorem ruled_withRule (net : Network) : Ruled net (Fragment.withRule net) where
  size := by
    refine Array.size_modify.trans ?_
    rw [Fragment.withBounds, size_pushState, size_pushState]
  rules := rfl
  grammar := rfl
  maxSymbol := rfl
  ways := by
    intro n
    rw [ways, Fragment.get?_withRule]
    split
    · next here => exact (ways_of_size_le (by omega)).symm
    · split
      · next here => exact (ways_of_size_le (by omega)).symm
      · rfl

theorem ruled_newLexerRule (net : Network) (tokenType : Int) :
    Ruled net (exec (Fragment.newLexerRule tokenType) net).2 := by
  have nonneg : ¬((net.rules.size : Nat) : Int) < 0 := by omega
  simp only [Fragment.newLexerRule, exec_bind, Fragment.exec_newRule, defineTokenType,
    if_neg nonneg]
  exact { ruled_withRule net with }

end Network

/-! Whatever becomes of the definition of a mode, it adds edges at the start of the mode only -/

/-- The work makes no states, and it adds edges to one state only. -/
def Build.AddsAt {α : Type} (source : Nat) (work : Build α) : Prop :=
  ∀ net : Network, net.Going source → (exec work net).2.Going source ∧
    ∃ added, net.Grown (exec work net).2 0 added ∧ ∀ e ∈ added, e.1 = source

namespace Build.AddsAt

open Network

variable {α β : Type} {source : Nat}

theorem pure (a : α) : AddsAt source (Pure.pure a) :=
  fun net going => ⟨going, [], grown_refl net, by simp⟩

theorem lookup (find : Network → Except NetworkError α) : AddsAt source (lookup find) := by
  intro net going
  rw [exec_lookup]
  exact ⟨going, [], grown_refl net, by simp⟩

theorem bind {work : Build α} {next : α → Build β} (first : AddsAt source work)
    (rest : ∀ a, AddsAt source (next a)) : AddsAt source (work >>= next) := by
  intro net going
  obtain ⟨going', added, grown, here⟩ := first net going
  rw [exec_bind]
  generalize exec work net = outcome at going' grown
  obtain ⟨e | a, net'⟩ := outcome
  · exact ⟨going', added, grown, here⟩
  · obtain ⟨going'', added', grown', here'⟩ := rest a net' going'
    exact ⟨going'', _, grown.trans grown', List.forall_mem_append.mpr ⟨here, here'⟩⟩

theorem connect (target : Nat) : AddsAt source (connect source target) := by
  intro net going
  rw [exec_connect]
  have grown : Grown net (net.addEdges [(source, .epsilon target)]) 0 _ :=
    grown_addEdges (List.forall_mem_singleton.mpr going)
  exact ⟨going.addTransition source _, _, grown, by simp⟩

theorem joinRules (rules : List Int) : AddsAt source (Fragment.joinRules source rules) := by
  induction rules with
  | nil => exact pure ()
  | cons r rest ih => exact (lookup _).bind fun boundary => (connect _).bind fun _ => ih

theorem defineDecision (state : Option Nat) : AddsAt source (defineDecision state) := by
  refine (lookup _).bind fun (d, n) => bind (fun net going => ⟨?_, [], ?_, by simp⟩) fun _ => pure d
  · exact going.modifyState fun _ => rfl
  · exact
      { size := Array.size_modify
        rules := rfl
        grammar := rfl
        maxSymbol := rfl
        ways := fun m => by
          rw [edgesFrom_nil, List.append_nil]
          exact ways_modifyState fun _ => rfl }

theorem defineMode (name : String) (start : Option Nat) :
    AddsAt source (defineMode name start) := by
  refine (lookup _).bind fun (m, n) => bind (fun net going => ⟨going, [], ?_, by simp⟩) fun _ =>
    (defineDecision _).bind fun _ => pure m
  exact { grown_refl net with }

end Build.AddsAt

open Network in
theorem Network.grown_newMode (net : Network) (name : String) (rules : List Int) :
    ∃ added, Grown net (exec (Fragment.newMode name rules) net).2 1 added ∧
      ∀ e ∈ added, e.1 = net.states.size := by
  have made : Grown net (net.pushState .tokenStart (-1)) 1 [] :=
    grown_pushStates net (-1) [.tokenStart]
  have going : (net.pushState .tokenStart (-1)).Going net.states.size :=
    ⟨_, net.get?_pushState_self .tokenStart (-1), by simp⟩
  have joined : AddsAt net.states.size (do
      Fragment.joinRules net.states.size rules
      let _ ← Build.defineMode name (some net.states.size)
      pure net.states.size) :=
    (AddsAt.joinRules rules).bind fun _ => (AddsAt.defineMode name _).bind fun _ => .pure _
  obtain ⟨-, added, grown, sources⟩ := joined _ going
  exact ⟨added, made.trans grown, sources⟩

/-! ### The operations that make a fragment -/

namespace Operation

open Network Fragment

/-- The operation makes the fragment, and the network grows by some states and edges. -/
def Lays (op : Operation) (net : Network) (f : Fragment) (fresh : Nat)
    (added : List (Nat × Transition)) : Prop :=
  ∃ net', Grown net net' fresh added ∧ exec op.run net = (.ok [f], net')

variable {net : Network} {r : Int} {body : Fragment}

theorem lays_element {label : Label} (plain : label.follow? = none) :
    (element r label plain).Lays net ⟨net.states.size, net.states.size + 1⟩ 2
      [(net.states.size, ⟨net.states.size + 1, label⟩)] := by
  simp only [Lays, run, exec_bind, exec_element, exec_pure, Prod.mk.injEq, true_and,
    exists_eq_right']
  exact layout_grown (by simp) (by simp)

/-- A call grows the network by its edge alone; the return begins at an end of a rule. -/
theorem grown_call (wired : net.Wired) {callee : Int} {boundary : Rule}
    (found : net.rule callee = .ok boundary) (r precedence : Int) :
    Grown net
      ((net.layout r [.basic, .basic] (callEdges net.states.size boundary callee precedence))
        |>.addTransition boundary.stop (.epsilon (net.states.size + 1))) 2
      (callEdges net.states.size boundary callee precedence) := by
  obtain ⟨e, he, kind, -⟩ := (bounds_of_rule wired found).1.stop
  have stop : net.kindAt? boundary.stop = some .ruleStop :=
    Option.map_eq_some_iff.mpr ⟨e, he, kind⟩
  have kept : net.Extends (net.layout r [.basic, .basic]
      (callEdges net.states.size boundary callee precedence)) :=
    ((extends_pushState _ _ _).trans (extends_pushState _ _ _)).trans (extends_addTransition _ _ _)
  have grown : Grown net (net.layout r [.basic, .basic]
      (callEdges net.states.size boundary callee precedence)) 2 _ :=
    layout_grown (by simp) (by simp [callEdges])
  exact grown.trans (grown_return (kindAt?_mono stop kept) _)

theorem lays_ruleRef (wired : net.Wired) {callee precedence : Int} {boundary : Rule}
    (found : net.rule callee = .ok boundary) :
    (ruleRef r callee precedence).Lays net ⟨net.states.size, net.states.size + 1⟩ 2
      (callEdges net.states.size boundary callee precedence) := by
  simp only [Lays, run, exec_bind, exec_ruleRef wired found, exec_pure, Prod.mk.injEq, true_and,
    exists_eq_right']
  exact grown_call wired found r precedence

/-- A single alternative is given back. -/
theorem lays_alternative (f : Fragment) : (alternatives r [f]).Lays net f 0 [] :=
  ⟨net, grown_refl net, rfl⟩

theorem lays_sequence {f : Fragment} {rest : List Fragment}
    (going : ∀ g ∈ f :: rest, net.Going g.exit) :
    (sequence r (f :: rest)).Lays net ⟨f.entry, (rest.getLastD f).exit⟩ 0 (joints f rest) := by
  simp only [Lays, run, exec_bind, exec_sequence, exec_pure, Prod.mk.injEq, true_and,
    exists_eq_right']
  refine grown_addEdges fun e mem => ?_
  obtain ⟨g, part, here⟩ := exists_exit_of_joint mem
  exact here ▸ going g part

theorem lays_alternatives {f g : Fragment} {rest : List Fragment}
    (going : ∀ h ∈ f :: g :: rest, net.Going h.exit) :
    (alternatives r (f :: g :: rest)).Lays net ⟨net.states.size, net.states.size + 1⟩ 2
      (branches net.states.size (net.states.size + 1) (f :: g :: rest)) := by
  simp only [Lays, run, exec_bind, exec_alternatives, exec_pure, Prod.mk.injEq, true_and,
    exists_eq_right']
  refine (layout_grown (by simp) fun e mem => ?_).withDecision _
  rcases source_of_branch mem with here | ⟨h, part, here⟩
  · exact .inr (by simp [here])
  · exact .inl (here ▸ going h part)

theorem lays_optional (going : net.Going body.exit) :
    (optional r body).Lays net ⟨net.states.size, net.states.size + 1⟩ 2
      (optionalEdges net.states.size body) := by
  simp only [Lays, run, exec_bind, exec_optional, exec_pure, Prod.mk.injEq, true_and,
    exists_eq_right']
  exact (layout_grown (by simp) (by simp [optionalEdges, going])).withDecision _

theorem lays_star (going : net.Going body.exit) :
    (star r body).Lays net ⟨net.states.size, net.states.size + 4⟩ 5
      (starEdges net.states.size body) := by
  simp only [Lays, run, exec_bind, exec_star, exec_pure, Prod.mk.injEq, true_and,
    exists_eq_right']
  exact ((layout_grown (by simp) (by simp [starEdges, going])).withDecision _).withDecision _

theorem lays_plus (going : net.Going body.exit) :
    (plus r body).Lays net ⟨net.states.size, net.states.size + 3⟩ 4
      (plusEdges net.states.size body) := by
  simp only [Lays, run, exec_bind, exec_plus, exec_pure, Prod.mk.injEq, true_and,
    exists_eq_right']
  exact ((layout_grown (by simp) (by simp [plusEdges, going])).withDecision _).withDecision _

end Operation

end GrammarNet
