import GrammarNet.Proofs.FragmentEdges
import GrammarNet.Proofs.Registries

/-!
What an operation on fragments can do to a network.

An operation looks up what it needs before it changes anything, and once it has begun to make states
nothing that it does can be refused, the registration of a mode apart. So it is refused and leaves
the network as it was, or it does one of four things: it registers a rule, it lays out states and
edges of which it registers those that decide, it calls a rule, or it makes the entry of a mode. The
entry of a mode that is refused stays, with edges to starts of rules.

`Operation.Outcome` lists these cases, and `Operation.outcome` says that there are no others. What
holds of a network after any operation is shown by going through the cases.
-/

namespace GrammarNet

open Build

namespace Network

variable {net : Network}

/-- The slots of the states that decide, when states of these kinds are put behind a slot. -/
def decisionSlots (base : Nat) : List StateKind → List Nat
  | [] => []
  | kind :: kinds =>
      if kind.isDecision then base :: decisionSlots (base + 1) kinds
      else decisionSlots (base + 1) kinds

/-- The network with some states as the next decisions. -/
def withDecisions (net : Network) (slots : List Nat) : Network :=
  slots.foldl withDecision net

/-- The network with an entry of a mode behind the last slot. -/
def pushEntry (net : Network) (targets : List Nat) : Network :=
  { net with
    states := net.states.push (some
      { number := net.states.size
        kind := .tokenStart
        rule := -1
        transitions := targets.map .epsilon }) }

theorem get?_pushEntry (net : Network) (targets : List Nat) (m : Nat) :
    (net.pushEntry targets).get? m =
      if m = net.states.size then
        some { number := m, kind := .tokenStart, rule := -1, transitions := targets.map .epsilon }
      else net.get? m := by
  simp only [get?, pushEntry, Array.getElem?_push]
  split
  · next last => subst last; rfl
  · rfl

theorem addTransition_pushEntry (net : Network) (targets : List Nat) (t : Nat) :
    (net.pushEntry targets).addTransition net.states.size (.epsilon t) =
      net.pushEntry (targets ++ [t]) := by
  unfold addTransition modifyState pushEntry
  congr 1
  apply Array.ext_getElem?
  intro m
  simp only [Array.getElem?_modify, Array.getElem?_push]
  by_cases last : m = net.states.size
  · simp [last]
  · rw [if_neg (Ne.symm last), if_neg last, if_neg last]

end Network

/-! ### The entry of a mode -/

namespace Fragment

variable {net : Network}

/-- The entry is joined with starts of rules, all or some of them. -/
theorem exec_joinRules (net : Network) (targets : List Nat) (rules : List Int) :
    ∃ answer more, exec (joinRules net.states.size rules) (net.pushEntry targets) =
        (answer, net.pushEntry (targets ++ more)) ∧
      ∀ t ∈ more, ∃ rule ∈ net.rules, rule.start = t := by
  induction rules generalizing targets with
  | nil => exact ⟨.ok (), [], by rw [List.append_nil]; rfl, by simp⟩
  | cons r rest ih =>
      simp only [joinRules, exec_bind, exec_lookup, exec_connect]
      cases found : net.rule r with
      | error e =>
          have absent : (net.pushEntry targets).rule r = .error e := found
          exact ⟨.error e, [], by rw [absent, List.append_nil], by simp⟩
      | ok boundary =>
          have found' : (net.pushEntry targets).rule r = .ok boundary := found
          obtain ⟨answer, more, joined, registered⟩ := ih (targets ++ [boundary.start])
          refine ⟨answer, boundary.start :: more, ?_, List.forall_mem_cons.mpr ⟨?_, registered⟩⟩
          · rw [found']
            simp only [Network.addTransition_pushEntry, joined, List.append_assoc,
              List.singleton_append]
          · exact ⟨boundary, Array.mem_of_getElem? (rule_eq_ok_iff.mp found).2, rfl⟩

/-- A mode is registered with its entry, or the entry stays alone. -/
theorem exec_newMode (numbered : net.All fun n s => s.number = n) (name : String)
    (rules : List Int) :
    ∃ targets, (∀ t ∈ targets, ∃ rule ∈ net.rules, rule.start = t) ∧
      ((∃ e, exec (newMode name rules) net = (.error e, net.pushEntry targets)) ∨
        net.modeStartNamed? name = none ∧ exec (newMode name rules) net = (.ok net.states.size,
          ((net.pushEntry targets).withDecision net.states.size).withMode name
            net.states.size)) := by
  obtain ⟨answer, targets, joined, registered⟩ := exec_joinRules net [] rules
  rw [List.nil_append] at joined
  refine ⟨targets, registered, ?_⟩
  have entered : net.pushState .tokenStart (-1) = net.pushEntry [] := rfl
  simp only [newMode, exec_bind, exec_createState, entered, joined]
  cases answer with
  | error e => exact .inl ⟨e, rfl⟩
  | ok _ =>
      have numbered' : (net.pushEntry targets).All fun n s => s.number = n := by
        intro n s hs
        rw [Network.get?_pushEntry] at hs
        split at hs
        · cases hs
          rfl
        · exact numbered n s hs
      rcases defineMode_cases numbered' name (some net.states.size) with
        ⟨e, refused⟩ | ⟨n, s, here, -, -, -, free, defined⟩
      · exact .inl ⟨e, by simp only [refused]⟩
      · cases here
        exact .inr ⟨free, by simp only [defined, exec_pure]⟩

end Fragment

/-! ### Outcomes -/

namespace Operation

open Network Fragment

/-- The operation joins fragments that it uses, new states and the boundary of a rule, by edges that
are no calls. -/
structure Laid (op : Operation) (net : Network) (kinds : List StateKind)
    (added : List (Nat × Transition)) : Prop where
  inner : ∀ kind ∈ kinds, kind ≠ .ruleStop
  plain : ∀ e ∈ added, e.2.label.follow? = none
  /-- An edge that does not just pass on is at a new state that is basic. -/
  labelled : ∀ e ∈ added, e.2.label = .epsilon ∨
    ∃ i, e.1 = net.states.size + i ∧ kinds[i]? = some .basic
  sources : ∀ e ∈ added, e.1 ∈ op.uses.flatMap ends ∨
    (net.states.size ≤ e.1 ∧ e.1 < net.states.size + kinds.length) ∨
    ∃ rule, net.rule op.rule = .ok rule ∧ rule.start = e.1
  targets : ∀ e ∈ added, e.2.target ∈ op.uses.flatMap ends ∨
    (net.states.size ≤ e.2.target ∧ e.2.target < net.states.size + kinds.length) ∨
    ∃ rule, net.rule op.rule = .ok rule ∧ rule.stop = e.2.target

/-- What becomes of a network by an operation on fragments, with the answer to the operation. -/
inductive Outcome (net : Network) (op : Operation) :
    Except NetworkError (List Fragment) × Network → Prop where
  | refused (e : NetworkError) (other : ∀ name rules, op ≠ .newMode name rules) :
      Outcome net op (.error e, net)
  | ruled (tokenTypes : Std.TreeMap Nat Int) :
      Outcome net op (.ok [], { withRule net with tokenTypes })
  | laid (kinds : List StateKind) (added : List (Nat × Transition)) (made : List Fragment)
      (laid : op.Laid net kinds added) :
      Outcome net op (.ok made,
        (net.layout op.rule kinds added).withDecisions (decisionSlots net.states.size kinds))
  | called (callee precedence : Int) (boundary : Rule) (found : net.rule callee = .ok boundary) :
      Outcome net op (.ok [⟨net.states.size, net.states.size + 1⟩],
        (net.layout op.rule [.basic, .basic]
            (callEdges net.states.size boundary callee precedence))
          |>.addTransition boundary.stop (.epsilon (net.states.size + 1)))
  | modeRefused (e : NetworkError) (name : String) (rules : List Int) (targets : List Nat)
      (mode : op = .newMode name rules)
      (registered : ∀ t ∈ targets, ∃ rule ∈ net.rules, rule.start = t) :
      Outcome net op (.error e, net.pushEntry targets)
  | moded (name : String) (targets : List Nat) (free : net.modeStartNamed? name = none)
      (registered : ∀ t ∈ targets, ∃ rule ∈ net.rules, rule.start = t) :
      Outcome net op (.ok [],
        ((net.pushEntry targets).withDecision net.states.size).withMode name net.states.size)

variable {net : Network} {r : Int}

theorem mem_joints {f : Fragment} {rest : List Fragment} {e : Nat × Transition}
    (mem : e ∈ joints f rest) :
    ∃ g ∈ f :: rest, ∃ h ∈ f :: rest, e = (g.exit, .epsilon h.entry) := by
  induction rest generalizing f with
  | nil => cases mem
  | cons g rest ih =>
      rcases List.mem_cons.mp mem with rfl | mem
      · exact ⟨f, by simp, g, by simp, rfl⟩
      · obtain ⟨g', part, h, part', same⟩ := ih mem
        exact ⟨g', List.mem_cons_of_mem f part, h, List.mem_cons_of_mem f part', same⟩

theorem mem_branches {entry exit : Nat} {fragments : List Fragment} {e : Nat × Transition}
    (mem : e ∈ branches entry exit fragments) :
    ∃ f ∈ fragments, e = (entry, .epsilon f.entry) ∨ e = (f.exit, .epsilon exit) := by
  induction fragments with
  | nil => cases mem
  | cons f rest ih =>
      rcases List.mem_cons.mp mem with rfl | mem
      · exact ⟨f, by simp, .inl rfl⟩
      · rcases List.mem_cons.mp mem with rfl | mem
        · exact ⟨f, by simp, .inr rfl⟩
        · obtain ⟨g, part, same⟩ := ih mem
          exact ⟨g, List.mem_cons_of_mem f part, same⟩

theorem laid_setRuleBody {body : Fragment} {boundary : Rule} (found : net.rule r = .ok boundary) :
    (setRuleBody r body).Laid net [] (bodyEdges boundary body) := by
  constructor <;> simp [bodyEdges, uses, ends, rule, found, Transition.epsilon, Label.follow?]

theorem laid_element {label : Label} (plain : label.follow? = none) :
    (element r label plain).Laid net [.basic, .basic]
      [(net.states.size, ⟨net.states.size + 1, label⟩)] := by
  refine ⟨?_, ?_, ?_, ?_, ?_⟩ <;> simp [plain]

theorem laid_sequence (f : Fragment) (rest : List Fragment) :
    (sequence r (f :: rest)).Laid net [] (joints f rest) := by
  refine ⟨by simp, fun e mem => ?_, fun e mem => ?_, fun e mem => ?_, fun e mem => ?_⟩ <;>
    obtain ⟨g, part, h, part', rfl⟩ := mem_joints mem
  · rfl
  · exact .inl rfl
  · exact .inl (exit_mem_ends part)
  · exact .inl (entry_mem_ends part')

theorem laid_alternatives (fragments : List Fragment) :
    (alternatives r fragments).Laid net [.blockStart, .blockEnd]
      (branches net.states.size (net.states.size + 1) fragments) := by
  refine ⟨by simp, fun e mem => ?_, fun e mem => ?_, fun e mem => ?_, fun e mem => ?_⟩ <;>
    obtain ⟨f, part, rfl | rfl⟩ := mem_branches mem
  · rfl
  · rfl
  · exact .inl rfl
  · exact .inl rfl
  · exact .inr (.inl (by simp))
  · exact .inl (exit_mem_ends part)
  · exact .inl (entry_mem_ends part)
  · exact .inr (.inl (by simp [Transition.epsilon]))

theorem laid_optional (body : Fragment) :
    (optional r body).Laid net [.blockStart, .blockEnd] (optionalEdges net.states.size body) := by
  constructor <;> simp [optionalEdges, uses, ends, Transition.epsilon, Label.follow?]

theorem laid_star (body : Fragment) :
    (star r body).Laid net [.starLoopEntry, .starBlockStart, .blockEnd, .starLoopBack, .loopEnd]
      (starEdges net.states.size body) := by
  constructor <;> simp [starEdges, uses, ends, Transition.epsilon, Label.follow?]

theorem laid_plus (body : Fragment) :
    (plus r body).Laid net [.plusBlockStart, .blockEnd, .plusLoopBack, .loopEnd]
      (plusEdges net.states.size body) := by
  constructor <;> simp [plusEdges, uses, ends, Transition.epsilon, Label.follow?]

theorem outcome (coherent : net.Coherent) (op : Operation) : op.Outcome net (exec op.run net) := by
  cases op with
  | newRule =>
      simp only [run, exec_bind, exec_newRule, exec_pure]
      exact .ruled net.tokenTypes
  | newLexerRule tokenType =>
      have nonneg : ¬((net.rules.size : Nat) : Int) < 0 := by omega
      simp only [run, Fragment.newLexerRule, exec_bind, exec_newRule, defineTokenType,
        if_neg nonneg, exec_modify, exec_pure]
      exact .ruled _
  | setRuleBody r body =>
      simp only [run, exec_bind]
      cases found : net.rule r with
      | error e =>
          rw [exec_setRuleBody_of_error found]
          exact .refused e (by simp)
      | ok boundary =>
          rw [exec_setRuleBody found]
          exact .laid [] _ [] (laid_setRuleBody found)
  | element r label plain =>
      simp only [run, exec_bind, exec_element, exec_pure]
      exact .laid [.basic, .basic] _ _ (laid_element plain)
  | ruleRef r callee precedence =>
      simp only [run, exec_bind]
      cases found : net.rule callee with
      | error e =>
          rw [exec_ruleRef_of_error found]
          exact .refused e (by simp)
      | ok boundary =>
          obtain ⟨nonneg, entry⟩ := rule_eq_ok_iff.mp found
          obtain ⟨s, hs, kind, number, -⟩ := (coherent.rules _ _ entry).start
          rw [Int.toNat_of_nonneg nonneg] at number
          rw [exec_ruleRef_of_start coherent.numbered found ⟨s, hs, kind, number⟩]
          exact .called callee precedence boundary found
  | sequence r fragments =>
      cases fragments with
      | nil => exact .refused _ (by simp)
      | cons f rest =>
          simp only [run, exec_bind, exec_sequence, exec_pure]
          exact .laid [] _ _ (laid_sequence f rest)
  | alternatives r fragments =>
      cases fragments with
      | nil => exact .refused _ (by simp)
      | cons f rest =>
          cases rest with
          | nil => exact .laid [] [] [f] ⟨by simp, by simp, by simp, by simp, by simp⟩
          | cons g rest =>
              simp only [run, exec_bind, exec_alternatives, exec_pure]
              exact .laid [.blockStart, .blockEnd] _ _ (laid_alternatives _)
  | optional r body =>
      simp only [run, exec_bind, exec_optional, exec_pure]
      exact .laid [.blockStart, .blockEnd] _ _ (laid_optional body)
  | star r body =>
      simp only [run, exec_bind, exec_star, exec_pure]
      exact .laid [.starLoopEntry, .starBlockStart, .blockEnd, .starLoopBack, .loopEnd] _ _
        (laid_star body)
  | plus r body =>
      simp only [run, exec_bind, exec_plus, exec_pure]
      exact .laid [.plusBlockStart, .blockEnd, .plusLoopBack, .loopEnd] _ _ (laid_plus body)
  | newMode name rules =>
      obtain ⟨targets, registered, ⟨e, refused⟩ | ⟨free, made⟩⟩ :=
        exec_newMode coherent.numbered name rules
      · simp only [run, exec_bind, refused]
        exact .modeRefused e name rules targets rfl registered
      · simp only [run, exec_bind, made, exec_pure]
        exact .moded name targets free registered

end Operation

end GrammarNet
