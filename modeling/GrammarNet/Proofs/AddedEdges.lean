import GrammarNet.Proofs.Construction

/-!
Networks that get more states and more edges.

Of the edges only those count here that lead on within a rule (`Network.ways`). `Network.Grown` says
by how many states a network grew and by which edges, in their order. A `layout` adds new states
first and then edges; `layout_grown` says where these edges may begin.
-/

namespace GrammarNet

open Build

/-- The edges that lead on within the rule: those by which an end of a rule returns do not. -/
def State.onward (s : State) : List Transition :=
  if s.kind = .ruleStop then [] else s.transitions

/-- The edges of a state that lead on within its rule. -/
def Network.ways (net : Network) (n : Nat) : List Transition :=
  (net.get? n).elim [] State.onward

/-! ### Edges by their sources -/

/-- The edges that begin at a state. -/
def edgesFrom (added : List (Nat × Transition)) (n : Nat) : List Transition :=
  added.filterMap fun (source, t) => if source = n then some t else none

@[simp] theorem edgesFrom_nil (n : Nat) : edgesFrom [] n = [] :=
  rfl

@[simp] theorem edgesFrom_cons (source : Nat) (t : Transition) (added : List (Nat × Transition))
    (n : Nat) : edgesFrom ((source, t) :: added) n =
      if source = n then t :: edgesFrom added n else edgesFrom added n := by
  unfold edgesFrom
  rw [List.filterMap_cons]
  by_cases here : source = n <;> simp [here]

@[simp] theorem edgesFrom_append (added added' : List (Nat × Transition)) (n : Nat) :
    edgesFrom (added ++ added') n = edgesFrom added n ++ edgesFrom added' n :=
  List.filterMap_append

theorem edgesFrom_eq_nil {added : List (Nat × Transition)} {n : Nat}
    (other : ∀ e ∈ added, e.1 ≠ n) : edgesFrom added n = [] :=
  List.filterMap_eq_nil_iff.mpr fun e mem => if_neg (other e mem)

/-- Where each edge has a source of its own. -/
theorem edgesFrom_of_nodup {added : List (Nat × Transition)} {e : Nat × Transition}
    (nodup : (added.map Prod.fst).Nodup) (mem : e ∈ added) : edgesFrom added e.1 = [e.2] := by
  induction added with
  | nil => cases mem
  | cons first rest ih =>
      rw [List.map_cons, List.nodup_cons] at nodup
      rw [edgesFrom_cons]
      rcases List.mem_cons.mp mem with rfl | mem
      · have none : edgesFrom rest e.1 = [] := edgesFrom_eq_nil fun e' mem' same =>
          nodup.1 (List.mem_map.mpr ⟨e', mem', same⟩)
        rw [if_pos rfl, none]
      · have other : first.1 ≠ e.1 := fun same =>
          nodup.1 (List.mem_map.mpr ⟨e, mem, same.symm⟩)
        rw [if_neg other]
        exact ih nodup.2 mem

namespace Network

/-- The state is there and does not end a rule. -/
def Going (net : Network) (n : Nat) : Prop :=
  ∃ s, net.get? n = some s ∧ s.kind ≠ .ruleStop

/-- The state can decide and is no decision yet. -/
def Undecided (net : Network) (n : Nat) : Prop :=
  ∃ s, net.get? n = some s ∧ s.number = n ∧ s.kind.isDecision = true ∧ s.decision = none

variable {net net' net'' : Network} {n m : Nat}

theorem get?_of_size_le (new : net.states.size ≤ n) : net.get? n = none := by
  rw [get?, Array.getElem?_eq_none new]
  rfl

theorem ways_of_size_le (new : net.states.size ≤ n) : net.ways n = [] := by
  rw [ways, get?_of_size_le new]
  rfl

/-! ### New edges -/

/-- The network with more edges. -/
def addEdges (net : Network) (added : List (Nat × Transition)) : Network :=
  added.foldl (fun net (source, t) => net.addTransition source t) net

/-- A change of states that keeps their edges. -/
theorem ways_modifyState {f : State → State} (same : ∀ s, (f s).onward = s.onward) :
    (net.modifyState m f).ways n = net.ways n := by
  rw [ways, ways, get?_modifyState]
  split
  · cases net.get? n with
    | none => rfl
    | some s => exact same s
  · rfl

theorem ways_addTransition (going : net.Going m) (t : Transition) :
    (net.addTransition m t).ways n = net.ways n ++ edgesFrom [(m, t)] n := by
  rw [ways, ways, get?_addTransition, edgesFrom_cons, edgesFrom_nil]
  by_cases here : m = n
  · obtain ⟨s, hs, inner⟩ := going
    subst here
    rw [if_pos rfl, if_pos rfl, hs]
    simp [State.onward, inner]
  · rw [if_neg here, if_neg here, List.append_nil]

theorem Going.modifyState (going : net.Going n) {f : State → State}
    (kind : ∀ s, (f s).kind = s.kind) : (net.modifyState m f).Going n := by
  obtain ⟨s, hs, inner⟩ := going
  rw [Going, get?_modifyState, hs]
  split
  · exact ⟨f s, rfl, (kind s).symm ▸ inner⟩
  · exact ⟨s, rfl, inner⟩

theorem Going.addTransition (going : net.Going n) (m : Nat) (t : Transition) :
    (net.addTransition m t).Going n :=
  going.modifyState fun _ => rfl

theorem Undecided.addTransition (undecided : net.Undecided n) (m : Nat) (t : Transition) :
    (net.addTransition m t).Undecided n := by
  obtain ⟨s, hs, same⟩ := undecided
  rw [Undecided, get?_addTransition, hs]
  split
  · exact ⟨_, rfl, same⟩
  · exact ⟨s, rfl, same⟩

theorem Undecided.addEdges (undecided : net.Undecided n) (added : List (Nat × Transition)) :
    (net.addEdges added).Undecided n := by
  induction added generalizing net with
  | nil => exact undecided
  | cons e added ih => exact ih (undecided.addTransition e.1 e.2)

theorem Undecided.withDecision (undecided : net.Undecided n) (other : m ≠ n) :
    (net.withDecision m).Undecided n := by
  obtain ⟨s, hs, same⟩ := undecided
  exact ⟨s, by rw [get?_withDecision, if_neg other, hs], same⟩

theorem exec_defineDecision_of_undecided (undecided : net.Undecided n) :
    exec (defineDecision (some n)) net = (.ok net.decisions.size, net.withDecision n) := by
  obtain ⟨s, hs, number, decides, fresh⟩ := undecided
  exact exec_defineDecision hs number decides fresh

/-! ### Growth -/

/-- The network grew by a number of states and by edges, in their order. -/
structure Grown (net net' : Network) (fresh : Nat) (added : List (Nat × Transition)) : Prop where
  size : net'.states.size = net.states.size + fresh
  rules : net'.rules = net.rules
  grammar : net'.grammar = net.grammar
  maxSymbol : net'.maxSymbol = net.maxSymbol
  ways : ∀ n, net'.ways n = net.ways n ++ edgesFrom added n

variable {fresh fresh' : Nat} {added added' : List (Nat × Transition)}

theorem Grown.trans (first : Grown net net' fresh added) (second : Grown net' net'' fresh' added') :
    Grown net net'' (fresh + fresh') (added ++ added') where
  size := by rw [second.size, first.size, Nat.add_assoc]
  rules := second.rules.trans first.rules
  grammar := second.grammar.trans first.grammar
  maxSymbol := second.maxSymbol.trans first.maxSymbol
  ways := fun n => by rw [second.ways, first.ways, edgesFrom_append, List.append_assoc]

theorem grown_refl (net : Network) : Grown net net 0 [] where
  size := rfl
  rules := rfl
  grammar := rfl
  maxSymbol := rfl
  ways := fun _ => (List.append_nil _).symm

theorem Grown.withDecision (grown : Grown net net' fresh added) (m : Nat) :
    Grown net (net'.withDecision m) fresh added where
  size := Array.size_modify.trans grown.size
  rules := grown.rules
  grammar := grown.grammar
  maxSymbol := grown.maxSymbol
  ways := fun n => by
    rw [← grown.ways n]
    exact ways_modifyState fun _ => rfl

theorem grown_addEdges (going : ∀ e ∈ added, net.Going e.1) :
    Grown net (net.addEdges added) 0 added := by
  induction added generalizing net with
  | nil => exact grown_refl net
  | cons e added ih =>
      rw [List.forall_mem_cons] at going
      have first : Grown net (net.addTransition e.1 e.2) 0 [e] :=
        { size := Array.size_modify
          rules := rfl
          grammar := rfl
          maxSymbol := rfl
          ways := fun n => ways_addTransition going.1 e.2 }
      exact first.trans (ih fun e' mem => (going.2 e' mem).addTransition e.1 e.2)

/-! ### New states -/

/-- The network with new states of these kinds for a rule. -/
def pushStates (net : Network) (rule : Int) (kinds : List StateKind) : Network :=
  kinds.foldl (fun net kind => net.pushState kind rule) net

theorem size_pushState (net : Network) (kind : StateKind) (rule : Int) :
    (net.pushState kind rule).states.size = net.states.size + 1 :=
  Array.size_push _

theorem size_pushStates (net : Network) (rule : Int) (kinds : List StateKind) :
    (net.pushStates rule kinds).states.size = net.states.size + kinds.length := by
  induction kinds generalizing net with
  | nil => rfl
  | cons kind kinds ih =>
      refine (ih (net.pushState kind rule)).trans ?_
      rw [size_pushState, List.length_cons]
      omega

/-- The states of before keep their slots. -/
theorem get?_pushStates_of_lt {rule : Int} {kinds : List StateKind} (old : n < net.states.size) :
    (net.pushStates rule kinds).get? n = net.get? n := by
  induction kinds generalizing net with
  | nil => rfl
  | cons kind kinds ih =>
      refine (ih (by rw [size_pushState]; omega)).trans ?_
      rw [get?_pushState, if_neg (Nat.ne_of_lt old)]

/-- Each kind has its state. -/
theorem get?_pushStates {rule : Int} {kinds : List StateKind} {i : Nat} {kind : StateKind}
    (here : kinds[i]? = some kind) : (net.pushStates rule kinds).get? (net.states.size + i) =
      some { number := net.states.size + i, kind, rule } := by
  induction kinds generalizing net i with
  | nil => cases here
  | cons first kinds ih =>
      cases i with
      | zero =>
          cases here
          have old : net.states.size < (net.pushState kind rule).states.size := by
            rw [size_pushState]
            omega
          exact (get?_pushStates_of_lt old).trans (net.get?_pushState_self kind rule)
      | succ i =>
          have rest : ((net.pushState first rule).pushStates rule kinds).get?
              ((net.pushState first rule).states.size + i) = _ := ih here
          rwa [size_pushState, Nat.add_assoc, Nat.add_comm 1] at rest

theorem ways_pushStates (rule : Int) (kinds : List StateKind) :
    (net.pushStates rule kinds).ways n = net.ways n := by
  by_cases old : n < net.states.size
  · rw [ways, get?_pushStates_of_lt old, ways]
  · have before : net.ways n = [] := ways_of_size_le (Nat.le_of_not_lt old)
    rw [before]
    obtain ⟨i, rfl⟩ := Nat.exists_eq_add_of_le (Nat.le_of_not_lt old)
    cases here : kinds[i]? with
    | none =>
        refine ways_of_size_le ?_
        have outside := List.getElem?_eq_none_iff.mp here
        rw [size_pushStates]
        omega
    | some kind =>
        rw [ways, get?_pushStates here]
        simp [State.onward]

/-- Making states changes nothing else. -/
theorem pushStates_eq (net : Network) (rule : Int) (kinds : List StateKind) :
    net.pushStates rule kinds = { net with states := (net.pushStates rule kinds).states } := by
  induction kinds generalizing net with
  | nil => rfl
  | cons kind kinds ih => exact ih (net.pushState kind rule)

theorem grown_pushStates (net : Network) (rule : Int) (kinds : List StateKind) :
    Grown net (net.pushStates rule kinds) kinds.length [] where
  size := size_pushStates net rule kinds
  rules := by rw [pushStates_eq]
  grammar := by rw [pushStates_eq]
  maxSymbol := by rw [pushStates_eq]
  ways := fun n => by rw [ways_pushStates, edgesFrom_nil, List.append_nil]

/-! ### Layouts -/

/-- The network with new states for a rule, and then with new edges. -/
def layout (net : Network) (rule : Int) (kinds : List StateKind)
    (added : List (Nat × Transition)) : Network :=
  (net.pushStates rule kinds).addEdges added

/-- New states go on where none of them ends a rule. -/
theorem going_pushStates {rule : Int} {kinds : List StateKind}
    (inner : ∀ kind ∈ kinds, kind ≠ .ruleStop)
    (known : net.Going n ∨ net.states.size ≤ n ∧ n < net.states.size + kinds.length) :
    (net.pushStates rule kinds).Going n := by
  rcases known with ⟨s, hs, going⟩ | ⟨new, less⟩
  · exact ⟨s, (get?_pushStates_of_lt (Lookahead.lt_size_of_get? hs)).trans hs, going⟩
  · obtain ⟨i, rfl⟩ := Nat.exists_eq_add_of_le new
    have inside : i < kinds.length := by omega
    exact ⟨_, get?_pushStates (List.getElem?_eq_getElem inside), inner _ (List.getElem_mem inside)⟩

/-- A layout has its states and edges, when they begin at new states or at states that go on. -/
theorem layout_grown {rule : Int} {kinds : List StateKind}
    (inner : ∀ kind ∈ kinds, kind ≠ .ruleStop)
    (sources : ∀ e ∈ added,
      net.Going e.1 ∨ net.states.size ≤ e.1 ∧ e.1 < net.states.size + kinds.length) :
    Grown net (net.layout rule kinds added) kinds.length added :=
  (grown_pushStates net rule kinds).trans
    (grown_addEdges fun e mem => going_pushStates inner (sources e mem))

theorem layout_undecided (net : Network) (rule : Int) {kinds : List StateKind}
    (added : List (Nat × Transition)) (i : Nat) {kind : StateKind} (here : kinds[i]? = some kind)
    (decides : kind.isDecision = true) :
    (net.layout rule kinds added).Undecided (net.states.size + i) :=
  Undecided.addEdges ⟨_, get?_pushStates here, rfl, decides, rfl⟩ added

/-! The steps of a layout -/

theorem layout_state (net : Network) (rule : Int) (kind : StateKind) (kinds : List StateKind)
    (added : List (Nat × Transition)) :
    net.layout rule (kind :: kinds) added = (net.pushState kind rule).layout rule kinds added :=
  rfl

theorem layout_edge (net : Network) (rule : Int) (source : Nat) (t : Transition)
    (added : List (Nat × Transition)) :
    net.layout rule [] ((source, t) :: added) =
      (net.addTransition source t).layout rule [] added :=
  rfl

theorem layout_nil (net : Network) (rule : Int) : net.layout rule [] [] = net :=
  rfl

end Network

end GrammarNet
