import GrammarNet.Network.Basic

/-!
Assembling a network.

Each operation runs in `Build`: it changes the network and may be refused, and a refusal keeps what
was changed before it. The checks of an operation come before its first change.
-/

namespace GrammarNet

/-- Work on a network that may be refused. -/
abbrev Build := ExceptT NetworkError (StateM Network)

namespace Network

/-- Changes the state in a slot, if there is one. -/
def modifyState (net : Network) (n : Nat) (f : State → State) : Network :=
  { net with states := net.states.modify n (·.map f) }

/-- Puts a state behind the last slot. -/
def pushState (net : Network) (kind : StateKind) (rule : Int) : Network :=
  { net with states := net.states.push (some { number := net.states.size, kind, rule }) }

/-- Keeps an empty slot behind the last one. -/
def pushAbsent (net : Network) : Network :=
  { net with states := net.states.push none }

/-- Adds an edge behind the edges of a state. -/
def addTransition (net : Network) (source : Nat) (t : Transition) : Network :=
  net.modifyState source fun s => { s with transitions := s.transitions ++ [t] }

/-! ### What is in the slots afterwards -/

theorem get?_modifyState (net : Network) (n m : Nat) (f : State → State) :
    (net.modifyState n f).get? m = if n = m then (net.get? m).map f else net.get? m := by
  simp only [get?, modifyState, Array.getElem?_modify]
  split
  · cases net.states[m]? <;> rfl
  · rfl

theorem get?_pushState (net : Network) (kind : StateKind) (rule : Int) (m : Nat) :
    (net.pushState kind rule).get? m =
      if m = net.states.size then some { number := m, kind, rule } else net.get? m := by
  simp only [get?, pushState, Array.getElem?_push]
  split
  · next h => subst h; rfl
  · rfl

theorem get?_pushAbsent (net : Network) (m : Nat) : net.pushAbsent.get? m = net.get? m := by
  simp only [get?, pushAbsent, Array.getElem?_push]
  split
  · next h => subst h; simp
  · rfl

theorem get?_addTransition (net : Network) (source m : Nat) (t : Transition) :
    (net.addTransition source t).get? m =
      if source = m then (net.get? m).map fun s => { s with transitions := s.transitions ++ [t] }
      else net.get? m :=
  net.get?_modifyState source m _

/-! ### Where a state is used -/

/-- The first state, by slot, that has an edge to `n` and is not `n` itself. -/
def sourceOf? (net : Network) (n : Nat) : Option Nat :=
  net.states.toList.findSome? fun slot =>
    slot.bind fun s =>
      if s.number ≠ n ∧ s.transitions.any (·.reaches n) then some s.number else none

/-- The state is the start or the stop of a rule. -/
def isBoundary (net : Network) (n : Nat) : Bool :=
  net.rules.any fun rule => rule.start == n || rule.stop == n

end Network

/-- A state handed to a network: one of its own, or one of elsewhere that carries a number. -/
inductive StateRef where
  | own (number : Nat)
  | foreign (number : Int)
  deriving DecidableEq, Repr

namespace Build

/-- The outcome of some work on a network. -/
def exec {α : Type} (work : Build α) (net : Network) : Except NetworkError α × Network :=
  work.run.run net

/-! ### Outcomes of joined work -/

section Exec

variable {α β : Type}

@[simp] theorem exec_pure (a : α) (net : Network) : exec (pure a) net = (.ok a, net) :=
  rfl

@[simp] theorem exec_throw (e : NetworkError) (net : Network) :
    exec (throw e : Build α) net = (.error e, net) :=
  rfl

@[simp] theorem exec_bind (work : Build α) (next : α → Build β) (net : Network) :
    exec (work >>= next) net =
      match exec work net with
      | (.ok a, net) => exec (next a) net
      | (.error e, net) => (.error e, net) := by
  change StateT.run (ExceptT.run (work >>= next)) net = _
  rw [ExceptT.run_bind]
  simp only [exec, StateT.run_bind]
  rcases StateT.run (ExceptT.run work) net with ⟨a | e, net'⟩ <;> rfl

@[simp] theorem exec_modify (f : Network → Network) (net : Network) :
    exec (modify f) net = (.ok (), f net) :=
  rfl

@[simp] theorem exec_modifyGet (f : Network → α × Network) (net : Network) :
    exec (modifyGet f) net = (.ok (f net).1, (f net).2) :=
  rfl

end Exec

/-! ### Operations -/

/-- Looks something up in the network. -/
def lookup {α : Type} (find : Network → Except NetworkError α) : Build α :=
  do MonadExcept.ofExcept (find (← get))

@[simp] theorem exec_lookup {α : Type} (find : Network → Except NetworkError α) (net : Network) :
    exec (lookup find) net = (find net, net) := by
  have h : lookup find = (get >>= fun net => MonadExcept.ofExcept (find net)) := rfl
  rw [h, exec_bind]
  change exec (MonadExcept.ofExcept (find net)) net = _
  cases find net <;> rfl

/-- Makes a state and gives its number. -/
def createState (kind : StateKind) (rule : Int := -1) : Build Nat :=
  modifyGet fun net => (net.states.size, net.pushState kind rule)

/-- Keeps a slot empty and gives its number. -/
def reserveSlot : Build Nat :=
  modifyGet fun net => (net.states.size, net.pushAbsent)

/-- Adds an edge to a state. -/
def addTransition (source : Nat) (t : Transition) : Build Unit :=
  modify fun net => net.addTransition source t

/-- Adds an edge that consumes nothing and asks nothing. -/
def connect (source target : Nat) : Build Unit :=
  addTransition source (.epsilon target)

@[simp] theorem exec_createState (kind : StateKind) (rule : Int) (net : Network) :
    exec (createState kind rule) net = (.ok net.states.size, net.pushState kind rule) :=
  rfl

@[simp] theorem exec_reserveSlot (net : Network) :
    exec reserveSlot net = (.ok net.states.size, net.pushAbsent) :=
  rfl

@[simp] theorem exec_addTransition (source : Nat) (t : Transition) (net : Network) :
    exec (addTransition source t) net = (.ok (), net.addTransition source t) :=
  rfl

@[simp] theorem exec_connect (source target : Nat) (net : Network) :
    exec (connect source target) net = (.ok (), net.addTransition source (.epsilon target)) :=
  rfl

/-- The call of a rule by its start state, going on at `follow`. -/
def callTransition (start follow : Option Nat) (precedence : Int := 0) : Build Transition :=
  lookup fun net =>
    match start.bind net.get? with
    | none => .error .calleeNotStart
    | some s =>
        if s.kind = .ruleStart then
          match follow with
          | none => .error .followMissing
          | some follow => .ok ⟨s.number, .call follow s.rule precedence⟩
        else .error .calleeNotStart

/-- Takes a state out of the network and leaves its slot empty. Registered decisions, boundaries of
rules and states to which another state leads are kept and the removal is refused. A state that is
not in the network is left alone. -/
def removeState (ref : Option StateRef) : Build Unit := do
  match ref with
  | none | some (.foreign _) => pure ()
  | some (.own n) =>
      lookup fun net =>
        match net.get? n with
        | none => .ok ()
        | some s =>
            match s.decision with
            | some d => .error (.stateIsDecision n d)
            | none =>
                if net.isBoundary n then .error (.stateIsBoundary n)
                else
                  match net.sourceOf? n with
                  | some source => .error (.stateIsReached n source)
                  | none => .ok ()
      modify fun net => { net with states := net.states.modify n fun _ => none }

/-- Registers the boundary states of the next rule and gives its number. Both states must carry
that number as their rule. -/
def defineRule (start stop : Option Nat) : Build Nat := do
  let (r, start, stop) ← lookup fun net =>
    match start.bind net.get?, stop.bind net.get? with
    | some s, some e =>
        if s.kind = .ruleStart ∧ e.kind = .ruleStop then
          let r := net.rules.size
          if s.rule = r ∧ e.rule = r then .ok (r, s.number, e.number)
          else .error (.boundaryRule r)
        else .error .boundaryKinds
    | _, _ => .error .boundaryKinds
  modify fun net =>
    let net := net.modifyState start fun s => { s with stop := some stop }
    { net with rules := net.rules.push { start, stop } }
  pure r

/-- Registers a state as the next decision and gives its number. -/
def defineDecision (state : Option Nat) : Build Nat := do
  let (d, n) ← lookup fun net =>
    match state.bind net.get? with
    | none => .error .notDecidable
    | some s =>
        if s.kind.isDecision then
          match s.decision with
          | some d => .error (.alreadyDecision d)
          | none => .ok (net.decisions.size, s.number)
        else .error .notDecidable
  modify fun net =>
    let net := net.modifyState n fun s => { s with decision := some d }
    { net with
      decisions := net.decisions.push n
      decisionDfas := net.decisionDfas.push { networkState := some n, number := d } }
  pure d

/-- Registers a lexer mode by its start state, which becomes a decision, and gives its number. -/
def defineMode (name : String) (start : Option Nat) : Build Nat := do
  let (m, n) ← lookup fun net =>
    match start.bind net.get? with
    | none => .error (.modeStartKind name)
    | some s =>
        if s.kind = .tokenStart then
          if (net.modeStartNamed? name).isSome || s.decision.isSome then
            .error (.modeDefined name)
          else .ok (net.modes.size, s.number)
        else .error (.modeStartKind name)
  modify fun net =>
    { net with
      modes := net.modes.push { name, start := n }
      modeDfas := net.modeDfas.push { networkState := some n, number := m } }
  let _ ← defineDecision (some n)
  pure m

/-- Sets the token type that a lexer rule produces. -/
def defineTokenType (rule tokenType : Int) : Build Unit := do
  if rule < 0 then throw .negativeRule
  modify fun net => { net with tokenTypes := net.tokenTypes.insert rule.toNat tokenType }

/-- Registers a lexer action and gives its number. -/
def addLexerAction (action : LexerAction) : Build Nat :=
  modifyGet fun net =>
    (net.lexerActions.size, { net with lexerActions := net.lexerActions.push action })

end Build

end GrammarNet
