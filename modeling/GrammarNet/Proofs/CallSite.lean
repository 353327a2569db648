import GrammarNet.Proofs.Assembly
import GrammarNet.Proofs.ExpectedTokens
import GrammarNet.Proofs.RuleEnd

/-!
The follow set of a state that calls a rule, and those of the start of the rule and of the state at
which the call goes on.

A walk from the call has the rule on its stack, a walk from the start of the rule has not. What the
latter finds inside of a call of the rule, it finds without this call as well (`Above`). It finds
more than a walk from the call only behind a call of the rule that it completes, so only when the
rule can be empty and calls itself on the left.
-/

namespace GrammarNet

open StackGraph

namespace Lookahead

variable {net : Network}

/-- What a walk from the start of a rule has come to can be come to above a call `f` of the rule. Of
its calls, those since the last call of the rule are left. -/
def Above (net : Network) (rule : Int) (start : Nat) (f : Frame) (p : Position) : Prop :=
  ∃ inner outer, p.stack = ⟨inner ++ outer, root⟩ ∧
    Reach (.clear net .empty false) ⟨start, [f], root⟩ ⟨p.state, inner ++ [f], root⟩ ∧
    Steps net .empty ⟨start, [], root⟩ ⟨p.state, inner.map (·.returnTo), root⟩ ∧
    ((outer = [] ∧ rule ∉ inner.map (·.rule)) ∨
      (LeftRecursive net rule start ∧ ∃ g rest, outer = g :: rest ∧ g.rule = rule))

theorem above_start (net : Network) (rule : Int) (start : Nat) (f : Frame) :
    Above net rule start f ⟨start, [], root⟩ :=
  ⟨[], [], rfl, .refl, .refl, .inl ⟨rfl, by simp⟩⟩

theorem Moves.above {rule : Int} {start : Nat} {f : Frame} {p q : Position}
    (move : Moves (.clear net .empty false) p q) (closed : net.RuleClosed)
    (starts : net.startOf? rule = some start) (called : f.rule = rule)
    (guarded : ¬ (Nullable net start ∧ LeftRecursive net rule start))
    (above : Above net rule start f p) : Above net rule start f q := by
  have free := free_clear net .empty false
  obtain ⟨inner, outer, stack, reach, steps, last⟩ := above
  cases move with
  | @cross n i s t _ _ hs kind going ht crosses =>
      obtain rfl := stack
      have mem : t ∈ s.transitions := List.mem_of_getElem? ht
      cases crosses with
      | pass pass =>
          have silent : net.Silent n t.target := by
            simp only [LookaheadOptions.passes, Bool.and_eq_true] at pass
            exact ⟨s, t, hs, kind, mem, pass.1, rfl⟩
          exact ⟨inner, outer, rfl, reach.tail (free.move_silent silent),
            steps.tail (.silent silent), last⟩
      | @call returnTo callee level label idle =>
          have call : net.Invokes n callee t.target returnTo :=
            ⟨s, t, level, hs, kind, mem, label, rfl⟩
          by_cases same : callee = rule
          · -- the walk begins the rule anew
            subst same
            obtain rfl : start = t.target :=
              Option.some.inj (starts.symm.trans (closed.startOf?_of_invokes call))
            exact ⟨[], _, rfl, .refl, .refl,
              .inr ⟨⟨n, _, _, _, steps, call⟩, _, _, rfl, rfl⟩⟩
          · obtain ⟨idle', fresh⟩ : callee ∉ inner.map (·.rule) ∧ callee ∉ outer.map (·.rule) := by
              simpa [CallStack.rules] using idle
            have still : callee ∉ (⟨inner ++ [f], root⟩ : CallStack).rules := by
              simpa [CallStack.rules, called, same] using idle'
            have enter : Moves (.clear net .empty false) ⟨n, inner ++ [f], root⟩
                ⟨t.target, ⟨n, i, callee, returnTo⟩ :: inner ++ [f], root⟩ :=
              .cross hs kind (free.going _ _) ht (.call label still)
            refine ⟨⟨n, i, callee, returnTo⟩ :: inner, outer, rfl, reach.tail enter,
              steps.tail (.call call), last.imp_left (And.imp_right ?_)⟩
            intro rare
            simpa [Ne.symm same] using rare
  | @back n s r _ rest hs kind _ mem =>
      obtain rfl := stack
      have ends : net.AtStop n := ⟨s, hs, kind⟩
      cases inner with
      | nil =>
          rcases last with ⟨rfl, -⟩ | ⟨recursive, -⟩
          · cases CallStack.resume_mem_returns_iff.mp mem with
            | drop entry => exact absurd entry call_notMem_root
          · -- the last call of the rule is completed, so the rule can be empty
            exact absurd ⟨⟨n, steps, ends⟩, recursive⟩ guarded
      | cons h inner =>
          cases CallStack.resume_mem_returns_iff.mp mem with
          | call =>
              refine ⟨inner, outer, rfl, reach.tail (free.move_back ends), steps.tail (.back ends),
                last.imp_left (And.imp_right ?_)⟩
              intro rare mem
              exact rare (List.mem_cons_of_mem _ mem)

/-- What a walk from the start of a rule comes to can be come to above a call of the rule. -/
theorem reach_above {rule : Int} {start : Nat} {f : Frame} {p : Position} (closed : net.RuleClosed)
    (starts : net.startOf? rule = some start) (called : f.rule = rule)
    (guarded : ¬ (Nullable net start ∧ LeftRecursive net rule start))
    (reach : Reach (.clear net .empty false) ⟨start, [], root⟩ p) : Above net rule start f p := by
  induction reach with
  | refl => exact above_start net rule start f
  | tail _ move ih => exact move.above closed starts called guarded ih

/-- A symbol that is found from the start of a rule is found from a call of the rule. -/
theorem finds_of_start {n start follow : Nat} {rule x : Int} (closed : net.RuleClosed)
    (call : net.Invokes n rule start follow)
    (guarded : ¬ (Nullable net start ∧ LeftRecursive net rule start))
    (finds : Finds net .empty false start root x) (symbol : x ≠ Symbol.epsilon) :
    Finds net .empty false n root x := by
  obtain ⟨p, reach, consumes | ⟨mark, -⟩⟩ := finds
  · obtain ⟨f, called, -, enter⟩ : ∃ f : Frame, f.rule = rule ∧ f.returnTo = follow ∧
        Moves (.clear net .empty false) ⟨n, [], root⟩ ⟨start, [f], root⟩ :=
      (free_clear net .empty false).move_call call List.not_mem_nil
    obtain ⟨inner, outer, -, above, -⟩ :=
      reach_above closed (closed.startOf?_of_invokes call) called guarded reach
    exact ⟨_, .head enter above, .inl consumes⟩
  · exact absurd mark symbol

/-- When a rule can end, a walk from a call of it gets to where the call goes on. -/
theorem reach_follow {n start follow : Nat} {rule : Int} (closed : net.RuleClosed)
    (call : net.Invokes n rule start follow) (out : RunsOut net start) :
    Reach (.clear net .empty false) ⟨n, [], root⟩ ⟨follow, [], root⟩ := by
  obtain ⟨stop, within, ends⟩ := out
  have steps : Steps net .empty ⟨start, [], root⟩ ⟨stop, [], root⟩ :=
    Reach.steps (within .empty false root)
  have ahead : EndsAhead net .empty ⟨stop, [], root⟩ :=
    ⟨0, stop, .here, ends, rfl, List.mem_cons_self⟩
  obtain ⟨k, stop', way, ends'⟩ : ∃ k stop, Through net [] k start stop ∧ net.AtStop stop := by
    cases unwinds_of_steps inherited_endsAhead steps ahead with
    | now reached =>
        obtain ⟨k, stop', way, ends', -⟩ := reached
        exact ⟨k, stop', way, ends'⟩
    | drop way ends' entry => exact absurd entry call_notMem_root
  obtain ⟨j, stop'', -, shorter, ends''⟩ :=
    way.shorten closed (closed.startOf?_of_invokes call) ends'
  have free := free_clear net .empty false
  obtain ⟨f, called, rfl, enter⟩ : ∃ f : Frame, f.rule = rule ∧ f.returnTo = follow ∧
      Moves (.clear net .empty false) ⟨n, [], root⟩ ⟨start, [f], root⟩ :=
    free.move_call call List.not_mem_nil
  have inside : Reach (.clear net .empty false) ⟨start, [f], root⟩ ⟨stop'', [f], root⟩ := by
    apply (shorter.runs closed).reach free
    intro r mem
    simpa [CallStack.rules, called] using mem
  exact .head enter (inside.tail (free.move_back ends''))

end Lookahead

namespace Follow

open Lookahead

/-- The follow set of a state, whatever follow sets are kept. -/
def Next (net : Network) (n : Nat) (found : SymbolSet) : Prop :=
  ∀ memo, FollowMemo.Honest memo net → (exec (set net n) memo).1 = .ok found

theorem next_of_look {net : Network} {n : Nat} {found : SymbolSet}
    (look : net.lookLocally n {} = .ok found) : Next net n found := by
  intro memo honest
  obtain ⟨memo', answer, -⟩ := exec_set honest look
  rw [answer]

theorem Next.unique {net : Network} {n : Nat} {found found' : SymbolSet} (next : Next net n found)
    (next' : Next net n found') : found = found' :=
  Except.ok.inj ((next {} (honest_empty net)).symm.trans (next' {} (honest_empty net)))

theorem next_finds {net : Network} (closed : net.RuleClosed) (unresumed : net.NoEntryResumed)
    (n : Nat) :
    ∃ found, Next net n found ∧ ∀ x, x ∈ found ↔ Finds net .empty false n root x := by
  obtain ⟨found, look, follows⟩ := lookLocally_follows closed unresumed n
  exact ⟨found, next_of_look look, fun x => (follows x).trans finds_local_iff.symm⟩

/-- In an assembled network, the follow set of a state that calls a rule has the symbols that the
rule can start with, unless the rule can be empty and calls itself on the left. When the rule can be
empty, it has all that is in the follow set of the state at which the call goes on. -/
theorem next_of_call {a : Assembly} (assembled : Assembled a) {n follow : Nat} {s : State}
    {t : Transition} {rule level : Int} (hs : a.net.get? n = some s) (mem : t ∈ s.transitions)
    (label : t.label = .call follow rule level) :
    ∃ atCall atStart atFollow,
      Next a.net n atCall ∧ Next a.net t.target atStart ∧ Next a.net follow atFollow ∧
      (¬ (Nullable a.net t.target ∧ LeftRecursive a.net rule t.target) →
        ∀ x ∈ atStart, x ≠ Symbol.epsilon → x ∈ atCall) ∧
      (a.net.OmitsEpsilon → Symbol.epsilon ∈ atStart → ∀ x ∈ atFollow, x ∈ atCall) := by
  have wired := assembled.sound.wired
  have closed := wired.ruleClosed
  have call : a.net.Invokes n rule t.target follow :=
    ⟨s, t, level, hs, wired.kind_of_call hs mem label, mem, label, rfl⟩
  obtain ⟨atCall, nextCall, callMem⟩ := next_finds closed wired.noEntryResumed n
  obtain ⟨atStart, nextStart, startMem⟩ := next_finds closed wired.noEntryResumed t.target
  obtain ⟨atFollow, nextFollow, followMem⟩ := next_finds closed wired.noEntryResumed follow
  refine ⟨atCall, atStart, atFollow, nextCall, nextStart, nextFollow, ?_, ?_⟩
  · intro guarded x hx symbol
    exact (callMem x).mpr (finds_of_start closed call guarded ((startMem x).mp hx) symbol)
  · intro omits empty x hx
    have follows : Follows a.net t.target atStart := fun x => (startMem x).trans finds_local_iff
    obtain ⟨p, reach, shown⟩ := (followMem x).mp hx
    have out := (follows.epsilon_mem_iff omits).mp empty
    exact (callMem x).mpr ⟨p, (reach_follow closed call out).trans reach, shown⟩

/-- Rule `0` may have a symbol `5`, and rule `1` calls it in state `8`. -/
def optionCall : Assembly :=
  Assembly.build { net := { grammar := .parser, maxSymbol := 10 } }
    [.newRule, .newRule, .element 0 (.atom 5) rfl, .optional 0 ⟨4, 5⟩, .setRuleBody 0 ⟨6, 7⟩,
      .ruleRef 1 0 0, .setRuleBody 1 ⟨8, 9⟩]

theorem optionCall_assembled : Assembled optionCall :=
  (Assembled.start .parser 10).build (by decide)

set_option maxRecDepth 20000 in
theorem optionCall_call :
    optionCall.net.get? 8 =
      some { number := 8, kind := .basic, rule := 1, transitions := [⟨0, .call 9 0 0⟩] } :=
  rfl

/-- The same for the call of a rule that can be empty. -/
theorem next_of_call_optionCall :
    Assembled optionCall ∧
      optionCall.net.get? 8 =
        some { number := 8, kind := .basic, rule := 1, transitions := [⟨0, .call 9 0 0⟩] } ∧
      ∃ atCall atStart atFollow,
        Next optionCall.net 8 atCall ∧ Next optionCall.net 0 atStart ∧
        Next optionCall.net 9 atFollow ∧
        (¬ (Nullable optionCall.net 0 ∧ LeftRecursive optionCall.net 0 0) →
          ∀ x ∈ atStart, x ≠ Symbol.epsilon → x ∈ atCall) ∧
        (optionCall.net.OmitsEpsilon → Symbol.epsilon ∈ atStart →
          ∀ x ∈ atFollow, x ∈ atCall) :=
  ⟨optionCall_assembled, optionCall_call,
    next_of_call optionCall_assembled optionCall_call List.mem_cons_self rfl⟩

/-! ### Calls that show too little -/

/-- Rule `0` is empty, or it calls itself and then has a symbol `5`. Rule `1` calls it in state
`12`. -/
def emptyOrLeft : Assembly :=
  Assembly.build { net := { grammar := .parser, maxSymbol := 10 } }
    [.newRule, .newRule, .ruleRef 0 0 0, .element 0 (.atom 5) rfl,
      .sequence 0 [⟨4, 5⟩, ⟨6, 7⟩], .element 0 .epsilon rfl,
      .alternatives 0 [⟨4, 7⟩, ⟨8, 9⟩], .setRuleBody 0 ⟨10, 11⟩, .ruleRef 1 0 0,
      .setRuleBody 1 ⟨12, 13⟩]

/-- Rule `0` has the symbol that stands for the end of a rule. Rule `1` calls it in state `6` and
then has a symbol `5`. -/
def epsilonAtom : Assembly :=
  Assembly.build { net := { grammar := .parser, maxSymbol := 10 } }
    [.newRule, .newRule, .element 0 (.atom Symbol.epsilon) rfl, .setRuleBody 0 ⟨4, 5⟩,
      .ruleRef 1 0 0, .element 1 (.atom 5) rfl, .sequence 1 [⟨6, 7⟩, ⟨8, 9⟩],
      .setRuleBody 1 ⟨6, 9⟩]

set_option maxRecDepth 20000 in
/-- The follow set of a call may lack a symbol that the rule can start with, when the rule can be
empty and calls itself on the left, and a symbol that can follow the call, when the rule only seems
to be empty. -/
theorem next_of_call_fails :
    (Assembled emptyOrLeft ∧ emptyOrLeft.net.Invokes 12 0 0 13 ∧
      Next emptyOrLeft.net 12 (.single Symbol.epsilon) ∧
      Next emptyOrLeft.net 0 (.addSymbol (.single 5) Symbol.epsilon)) ∧
    (Assembled epsilonAtom ∧ epsilonAtom.net.Invokes 6 0 0 7 ∧
      Next epsilonAtom.net 6 (.single Symbol.epsilon) ∧
      Next epsilonAtom.net 0 (.single Symbol.epsilon) ∧ Next epsilonAtom.net 7 (.single 5)) := by
  refine ⟨⟨(Assembled.start .parser 10).build (by decide), ?_, ?_, ?_⟩,
    (Assembled.start .parser 10).build (by decide), ?_, ?_, ?_, ?_⟩
  · exact ⟨_, _, _, rfl, by decide, List.mem_cons_self, rfl, rfl⟩
  · exact next_of_look (Loop.run_eq_of_runFor (n := 40) rfl _)
  · exact next_of_look (Loop.run_eq_of_runFor (n := 40) rfl _)
  · exact ⟨_, _, _, rfl, by decide, List.mem_cons_self, rfl, rfl⟩
  · exact next_of_look (Loop.run_eq_of_runFor (n := 40) rfl _)
  · exact next_of_look (Loop.run_eq_of_runFor (n := 40) rfl _)
  · exact next_of_look (Loop.run_eq_of_runFor (n := 40) rfl _)

end Follow

end GrammarNet
