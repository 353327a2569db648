import GrammarNet.Lookahead.Ends
import Mathlib.Logic.Relation

/-!
The positions of a lookahead walk, what the walk can do in them and what it records there.

A position is a state with a call stack. `Moves` says to which positions the walk goes on from a
position, and `Emits` which symbols it records there. Neither looks at the work that is pending, at
the positions entered so far or at the rules being run: a call is admitted by the stack alone, when
no call of the same rule is on it.

* `Moves.traced` and `Traced.key_inj`: in a position that is reached from an empty stack, the calls
  on the stack are edges of the network, and the key of the position tells it apart.
* `mem_consumed`: the symbols an edge can consume are those its label accepts.
* `Crosses.of_call`, `Moves.by_edge`, `Emits.by_return` and the lemmas beside them: what is left of
  a step when the label of the edge or the kind of the state is known.
-/

namespace GrammarNet

namespace CallStack

/-- The rules of the calls on a stack, innermost first. -/
def rules (s : CallStack) : List Int :=
  s.calls.map (·.rule)

@[simp] theorem rules_enter (s : CallStack) (f : Frame) : (s.enter f).rules = f.rule :: s.rules :=
  rfl

@[simp] theorem rules_mk_nil (base : Nat) : (⟨[], base⟩ : CallStack).rules = [] :=
  rfl

theorem isEmpty_iff {s : CallStack} : s.isEmpty = true ↔ s = ⟨[], StackGraph.root⟩ := by
  obtain ⟨calls, base⟩ := s
  simp [isEmpty]

/-- The empty stack ends and returns nowhere. -/
theorem returns_root (g : StackGraph) : (⟨[], StackGraph.root⟩ : CallStack).returns g = [.ended] :=
  rfl

theorem returns_cons (g : StackGraph) (f : Frame) (calls : List Frame) (base : Nat) :
    (⟨f :: calls, base⟩ : CallStack).returns g = [.resume f.returnTo ⟨calls, base⟩] :=
  rfl

theorem ended_mem_returns_nil {g : StackGraph} {base : Nat} :
    .ended ∈ (⟨[], base⟩ : CallStack).returns g ↔ .ended ∈ g.entries base := by
  simp only [returns, List.mem_map]
  constructor
  · rintro ⟨e, he, h⟩
    cases e with
    | ended => exact he
    | call r c => cases h
  · intro h
    exact ⟨.ended, h, rfl⟩

/-- Leaving the current rule leads to a state and leaves a stack behind: the last call is taken off,
or the walk drops to a caller of the node it stands on. -/
inductive Pops (g : StackGraph) : CallStack → Int → CallStack → Prop where
  | call {f : Frame} {calls : List Frame} {base : Nat} :
      Pops g ⟨f :: calls, base⟩ f.returnTo ⟨calls, base⟩
  | drop {base caller : Nat} {r : Int} :
      .call r caller ∈ g.entries base → Pops g ⟨[], base⟩ r ⟨[], caller⟩

theorem resume_mem_returns_iff {g : StackGraph} {stack rest : CallStack} {r : Int} :
    .resume r rest ∈ stack.returns g ↔ Pops g stack r rest := by
  obtain ⟨calls, base⟩ := stack
  constructor
  · intro mem
    cases calls with
    | nil =>
        obtain ⟨e, entry, h⟩ := List.mem_map.mp mem
        cases e with
        | ended => cases h
        | call r' c =>
            cases h
            exact .drop entry
    | cons f calls =>
        rw [returns_cons, List.mem_singleton] at mem
        cases mem
        exact .call
  · intro pops
    cases pops with
    | call => exact List.mem_cons_self
    | drop entry => exact List.mem_map.mpr ⟨_, entry, rfl⟩

end CallStack

namespace Label

/-- The label asks a question about the parse. -/
def isPredicate : Label → Bool
  | predicate .. | precedence _ => true
  | _ => false

/-- The label consumes nothing and enters no rule. -/
def isSilent : Label → Bool
  | epsilon | action .. | predicate .. | precedence _ => true
  | _ => false

end Label

/-- The label is passed by a walk with these options. -/
def LookaheadOptions.passes (options : LookaheadOptions) (l : Label) : Bool :=
  l.isSilent && (!l.isPredicate || options.seeThroughPredicates)

namespace Lookahead

theorem mem_consumed {max x : Int} {l : Label} :
    x ∈ consumed max l ↔ l.accepts Symbol.firstUser max x = true := by
  cases l with
  | notSet s =>
      have absent : s.contains x = false ↔ ¬ x ∈ s := by
        rw [← SymbolSet.contains_iff, Bool.not_eq_true]
      simp [consumed, Label.accepts, absent, and_assoc]
  | _ => simp [consumed, Label.accepts, Label.symbols]

/-- A walk over this ground ends at a state with this stack, whatever the edges of the state. -/
abbrev Ground.Halts (ground : Ground) (n : Nat) (stack : CallStack) : Prop :=
  ground.stop = some n ∧ stack.isEmpty = true

/-- A state together with the call stack with which a walk is in it. -/
structure Position where
  state : Nat
  stack : CallStack

/-- Crossing an edge leads to a position. -/
inductive Crosses (options : LookaheadOptions) (source index : Nat) (edge : Transition)
    (stack : CallStack) : Position → Prop where
  | pass : options.passes edge.label = true →
      Crosses options source index edge stack ⟨edge.target, stack⟩
  | call {returnTo : Nat} {rule precedence : Int} :
      edge.label = .call returnTo rule precedence → rule ∉ stack.rules →
      Crosses options source index edge stack
        ⟨edge.target, stack.enter ⟨source, index, rule, returnTo⟩⟩

/-- A symbol is recorded at an edge. -/
inductive Shows (ground : Ground) (edge : Transition) : Int → Prop where
  | barrier : edge.label.isPredicate = true → ground.options.seeThroughPredicates = false →
      Shows ground edge Symbol.invalid
  | symbol {x : Int} : x ∈ consumed ground.net.maxSymbol edge.label → Shows ground edge x

/-- The walk goes on from one position to another. -/
inductive Moves (ground : Ground) : Position → Position → Prop where
  | cross {n i : Nat} {s : State} {t : Transition} {stack : CallStack} {q : Position} :
      ground.net.get? n = some s → s.kind ≠ .ruleStop → ¬ ground.Halts n stack →
      s.transitions[i]? = some t → Crosses ground.options n i t stack q →
      Moves ground ⟨n, stack⟩ q
  | back {n : Nat} {s : State} {r : Int} {stack rest : CallStack} :
      ground.net.get? n = some s → s.kind = .ruleStop → ¬ ground.Halts n stack →
      .resume r rest ∈ stack.returns ground.graph → Moves ground ⟨n, stack⟩ ⟨r.toNat, rest⟩

/-- The walk records a symbol in a position. -/
inductive Emits (ground : Ground) : Position → Int → Prop where
  | halt {n : Nat} {s : State} {stack : CallStack} :
      ground.net.get? n = some s → ground.Halts n stack →
      Emits ground ⟨n, stack⟩ ground.options.boundary
  | ended {n : Nat} {s : State} {stack : CallStack} :
      ground.net.get? n = some s → s.kind = .ruleStop → .ended ∈ stack.returns ground.graph →
      Emits ground ⟨n, stack⟩ ground.options.boundary
  | edge {n i : Nat} {s : State} {t : Transition} {stack : CallStack} {x : Int} :
      ground.net.get? n = some s → s.kind ≠ .ruleStop → ¬ ground.Halts n stack →
      s.transitions[i]? = some t → Shows ground t x → Emits ground ⟨n, stack⟩ x

/-- The walk gets from one position to another. -/
abbrev Reach (ground : Ground) : Position → Position → Prop :=
  Relation.ReflTransGen (Moves ground)

/-! ### What a label and the kind of a state leave open -/

section Crossing

variable {options : LookaheadOptions} {ground : Ground} {n i returnTo : Nat} {t : Transition}
  {stack : CallStack} {q : Position} {rule precedence x : Int}

theorem passes_of_call (label : t.label = .call returnTo rule precedence) :
    options.passes t.label = false := by
  rw [label]
  rfl

/-- An edge that is passed leads to its target and tells nothing. -/
theorem Crosses.of_passes (crosses : Crosses options n i t stack q)
    (pass : options.passes t.label = true) : q = ⟨t.target, stack⟩ := by
  cases crosses with
  | pass _ => rfl
  | call label _ =>
      rw [passes_of_call label] at pass
      cases pass

theorem not_shows_of_passes (pass : ground.options.passes t.label = true) :
    ¬ Shows ground t x := by
  intro shows
  simp only [LookaheadOptions.passes, Bool.and_eq_true, Bool.or_eq_true, Bool.not_eq_true'] at pass
  obtain ⟨silent, seen⟩ := pass
  cases shows with
  | barrier asks closed =>
      rcases seen with seen | seen
      · rw [asks] at seen
        cases seen
      · rw [closed] at seen
        cases seen
  | symbol mem =>
      rw [mem_consumed] at mem
      cases hl : t.label <;> simp_all [Label.isSilent, Label.accepts]

/-- A call leads into the rule, when the rule is not being run, and tells nothing. -/
theorem Crosses.of_call (crosses : Crosses options n i t stack q)
    (label : t.label = .call returnTo rule precedence) :
    rule ∉ stack.rules ∧ q = ⟨t.target, stack.enter ⟨n, i, rule, returnTo⟩⟩ := by
  cases crosses with
  | pass pass =>
      rw [passes_of_call label] at pass
      cases pass
  | call label' idle =>
      rw [label] at label'
      cases label'
      exact ⟨idle, rfl⟩

theorem not_shows_of_call (label : t.label = .call returnTo rule precedence) :
    ¬ Shows ground t x := by
  intro shows
  cases shows with
  | barrier asks _ =>
      rw [label] at asks
      cases asks
  | symbol mem =>
      rw [mem_consumed, label] at mem
      cases mem

/-- A question that is not looked through leads nowhere and tells that it was met. -/
theorem not_crosses_of_asks (asks : t.label.isPredicate = true)
    (closed : options.seeThroughPredicates = false) : ¬ Crosses options n i t stack q := by
  intro crosses
  cases crosses with
  | pass pass => simp [LookaheadOptions.passes, asks, closed] at pass
  | call label _ =>
      rw [label] at asks
      cases asks

theorem Shows.of_asks (shows : Shows ground t x) (asks : t.label.isPredicate = true) :
    x = Symbol.invalid := by
  cases shows with
  | barrier _ _ => rfl
  | symbol mem =>
      rw [mem_consumed] at mem
      cases hl : t.label <;> simp_all [Label.isPredicate, Label.accepts]

/-- An edge that consumes leads nowhere and tells what it consumes. -/
theorem not_crosses_of_eats (eats : t.label.isEpsilon = false) :
    ¬ Crosses options n i t stack q := by
  intro crosses
  cases crosses with
  | pass pass =>
      simp only [LookaheadOptions.passes, Bool.and_eq_true] at pass
      cases hl : t.label <;> simp_all [Label.isEpsilon, Label.isSilent]
  | call label _ =>
      rw [label] at eats
      cases eats

theorem Shows.of_eats (shows : Shows ground t x) (eats : t.label.isEpsilon = false) :
    x ∈ consumed ground.net.maxSymbol t.label := by
  cases shows with
  | barrier asks _ => cases hl : t.label <;> simp_all [Label.isEpsilon, Label.isPredicate]
  | symbol mem => exact mem

end Crossing

section Leaving

variable {ground : Ground} {n : Nat} {s : State} {stack : CallStack} {q : Position} {x : Int}

/-- Only by its edges does a walk leave a state that ends no rule. -/
theorem Moves.by_edge (move : Moves ground ⟨n, stack⟩ q) (hs : ground.net.get? n = some s)
    (kind : s.kind ≠ .ruleStop) :
    ∃ i t, s.transitions[i]? = some t ∧ Crosses ground.options n i t stack q := by
  cases move with
  | cross hs' _ _ ht crosses =>
      rw [hs] at hs'
      cases hs'
      exact ⟨_, _, ht, crosses⟩
  | back hs' kind' _ _ =>
      rw [hs] at hs'
      cases hs'
      exact absurd kind' kind

theorem Emits.by_edge (emits : Emits ground ⟨n, stack⟩ x) (hs : ground.net.get? n = some s)
    (kind : s.kind ≠ .ruleStop) (going : ¬ ground.Halts n stack) :
    ∃ (i : Nat) (t : Transition), s.transitions[i]? = some t ∧ Shows ground t x := by
  cases emits with
  | halt _ halts => exact absurd halts going
  | ended hs' kind' _ =>
      rw [hs] at hs'
      cases hs'
      exact absurd kind' kind
  | edge hs' _ _ ht shows =>
      rw [hs] at hs'
      cases hs'
      exact ⟨_, _, ht, shows⟩

/-- Only by returning does a walk leave the end of a rule. -/
theorem Moves.by_return (move : Moves ground ⟨n, stack⟩ q) (hs : ground.net.get? n = some s)
    (kind : s.kind = .ruleStop) :
    ∃ r rest, .resume r rest ∈ stack.returns ground.graph ∧ q = ⟨r.toNat, rest⟩ := by
  cases move with
  | cross hs' kind' _ _ _ =>
      rw [hs] at hs'
      cases hs'
      exact absurd kind kind'
  | back _ _ _ mem => exact ⟨_, _, mem, rfl⟩

theorem Emits.by_return (emits : Emits ground ⟨n, stack⟩ x) (hs : ground.net.get? n = some s)
    (kind : s.kind = .ruleStop) (going : ¬ ground.Halts n stack) :
    x = ground.options.boundary ∧ .ended ∈ stack.returns ground.graph := by
  cases emits with
  | halt _ halts => exact absurd halts going
  | ended _ _ mem => exact ⟨rfl, mem⟩
  | edge hs' kind' _ _ _ =>
      rw [hs] at hs'
      cases hs'
      exact absurd kind kind'

/-- Where a walk ends it goes on nowhere and records the mark of the end. -/
theorem not_moves_of_stopped (hs : ground.net.get? n = some s)
    (stopped : ground.Halts n stack ∨ (s.kind = .ruleStop ∧ stack.isEmpty = true)) :
    ¬ Moves ground ⟨n, stack⟩ q := by
  intro move
  rcases stopped with halts | ⟨kind, empty⟩
  · cases move with
    | cross _ _ going _ _ => exact going halts
    | back _ _ going _ => exact going halts
  · obtain ⟨r, rest, mem, -⟩ := move.by_return hs kind
    rw [CallStack.isEmpty_iff.mp empty, CallStack.returns_root, List.mem_singleton] at mem
    cases mem

theorem Emits.of_stopped (emits : Emits ground ⟨n, stack⟩ x) (hs : ground.net.get? n = some s)
    (stopped : ground.Halts n stack ∨ (s.kind = .ruleStop ∧ stack.isEmpty = true)) :
    x = ground.options.boundary := by
  cases emits with
  | halt _ _ => rfl
  | ended _ _ _ => rfl
  | edge hs' kind going _ _ =>
      rw [hs] at hs'
      cases hs'
      rcases stopped with halts | ⟨stops, -⟩
      · exact absurd halts going
      · exact absurd stops kind

end Leaving

/-! ### The calls on a stack are edges -/

theorem edge?_eq_some {net : Network} {n i : Nat} {s : State} {t : Transition}
    (hs : net.get? n = some s) (ht : s.transitions[i]? = some t) : edge? net n i = some t := by
  rw [edge?, hs]
  exact ht

/-- The call was made at an edge of the network. -/
def MadeAt (net : Network) (f : Frame) : Prop :=
  ∃ target level, edge? net f.caller f.edge = some ⟨target, .call f.returnTo f.rule level⟩

/-- All calls on a stack were made at edges of the network. -/
def Traced (net : Network) (stack : CallStack) : Prop :=
  ∀ f ∈ stack.calls, MadeAt net f

theorem traced_nil (net : Network) (base : Nat) : Traced net ⟨[], base⟩ := by
  intro f hf
  cases hf

/-- A call is known by its edge. -/
theorem MadeAt.eq {net : Network} {f g : Frame} (hf : MadeAt net f) (hg : MadeAt net g)
    (caller : f.caller = g.caller) (edge : f.edge = g.edge) : f = g := by
  obtain ⟨target, level, ht⟩ := hf
  obtain ⟨target', level', ht'⟩ := hg
  rw [caller, edge, ht'] at ht
  obtain ⟨fc, fe, fr, ft⟩ := f
  obtain ⟨gc, ge, gr, gt⟩ := g
  simp only [Option.some.injEq, Transition.mk.injEq, Label.call.injEq] at ht
  simp only at caller edge
  simp [caller, edge, ht]

/-- What is left of a stack after leaving a rule. -/
theorem Traced.of_pops {net : Network} {g : StackGraph} {stack rest : CallStack} {r : Int}
    (traced : Traced net stack) (pops : stack.Pops g r rest) : Traced net rest := by
  cases pops with
  | @call f calls base =>
      intro g hg
      exact traced g (List.mem_cons_of_mem f hg)
  | @drop base caller _ _ => exact traced_nil net caller

theorem Moves.traced {ground : Ground} {p q : Position} (move : Moves ground p q)
    (traced : Traced ground.net p.stack) : Traced ground.net q.stack := by
  cases move with
  | cross hs _ _ ht crosses =>
      cases crosses with
      | pass _ => exact traced
      | call label _ =>
          intro f hf
          rcases List.mem_cons.mp hf with rfl | hf
          · exact ⟨_, _, by rw [edge?_eq_some hs ht, ← label]⟩
          · exact traced f hf
  | back _ _ _ mem => exact traced.of_pops (CallStack.resume_mem_returns_iff.mp mem)

theorem Reach.traced {ground : Ground} {p q : Position} (reach : Reach ground p q)
    (traced : Traced ground.net p.stack) : Traced ground.net q.stack := by
  induction reach with
  | refl => exact traced
  | tail _ move ih => exact move.traced ih

/-- The key of a position tells it apart. -/
theorem Traced.key_inj {net : Network} {n m : Nat} {s t : CallStack} (hs : Traced net s)
    (ht : Traced net t) (key : s.key n = t.key m) : n = m ∧ s = t := by
  obtain ⟨xs, base⟩ := s
  obtain ⟨ys, base'⟩ := t
  simp only [CallStack.key, List.cons.injEq] at key
  obtain ⟨rfl, rfl, key⟩ := key
  suffices h : xs = ys by simp [h]
  induction xs generalizing ys with
  | nil =>
      cases ys with
      | nil => rfl
      | cons g ys => simp at key
  | cons f xs ih =>
      cases ys with
      | nil => simp at key
      | cons g ys =>
          simp only [List.flatMap_cons, List.cons_append, List.nil_append, List.cons.injEq] at key
          obtain ⟨caller, edge, key⟩ := key
          have head : f = g :=
            (hs f List.mem_cons_self).eq (ht g List.mem_cons_self) caller edge
          have tail : xs = ys :=
            ih (fun a ha => hs a (List.mem_cons_of_mem f ha)) ys key
              fun a ha => ht a (List.mem_cons_of_mem g ha)
          rw [head, tail]

end Lookahead

end GrammarNet
