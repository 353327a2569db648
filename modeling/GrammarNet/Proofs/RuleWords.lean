import GrammarNet.Proofs.DraftedGrammars

/-!
The words that a finished grammar reads.

A run goes along the edges of a network. It consumes a symbol where the edge accepts it, and where
an edge calls a rule, another run leads from the start of that rule to its end (`Network.Reads`).
The edges by which an end of a rule returns are not used.

A grammar gives each rule the expression of its body, and the words of the rules are the least
solution of these equations (`Draft.language`). With the words of the rules given, the runs are the
paths of `wordsTo`, so that a draft reads what its expressions say (`reads_iff_words`). A
fragment in a loop is left and entered again, so a run through it counts up to its end only.
-/

namespace GrammarNet

open Network Computability

/-! ### Runs -/

/-- A run from a state to a state, with the word that it reads. It does not go on at the state at
which it has to halt. -/
inductive Network.Reads (net : Network) : Option Nat → Nat → Nat → List Int → Prop where
  | here {halt : Option Nat} {n : Nat} : Reads net halt n n []
  | pass {halt : Option Nat} {n m : Nat} {t : Transition} {w : List Int} :
      halt ≠ some n → t ∈ net.ways n → t.label.isEpsilon = true → t.label.follow? = none →
      Reads net halt t.target m w → Reads net halt n m w
  | consume {halt : Option Nat} {n m : Nat} {t : Transition} {x : Int} {w : List Int} :
      halt ≠ some n → t ∈ net.ways n →
      t.label.accepts Symbol.firstUser net.maxSymbol x = true →
      Reads net halt t.target m w → Reads net halt n m (x :: w)
  /-- The rule is run from its start to its end, and the run goes on behind the call. -/
  | call {halt : Option Nat} {n m : Nat} {t : Transition} {follow : Nat} {rule precedence : Int}
      {boundary : Rule} {u w : List Int} :
      halt ≠ some n → t ∈ net.ways n → t.label = .call follow rule precedence →
      net.rule rule = .ok boundary → Reads net none t.target boundary.stop u →
      Reads net halt follow m w → Reads net halt n m (u ++ w)

namespace Network

variable {net : Network} {env : Int → Language Int} {halt : Option Nat} {n m z : Nat} {w : List Int}

/-- The words that a rule reads from its start to its end. -/
def ruleWords (net : Network) (rule : Int) : Language Int :=
  {w | ∃ boundary, net.rule rule = .ok boundary ∧
    net.Reads none boundary.start boundary.stop w}

/-- The edges out of the ends of rules do not count, and calls lead to the starts of rules. -/
structure CallsRules (net : Network) : Prop where
  idle : ∀ rule boundary, net.rule rule = .ok boundary → net.ways boundary.stop = []
  starts : ∀ n, ∀ t ∈ net.ways n, ∀ follow rule precedence, t.label = .call follow rule precedence →
    ∃ boundary, net.rule rule = .ok boundary ∧ t.target = boundary.start

/-! ### Runs and paths -/

theorem isEpsilon_of_accepts {l : Label} {min max x : Int} (accepted : l.accepts min max x = true) :
    l.isEpsilon = false ∧ l.follow? = none := by
  cases l with
  | atom | range | set | notSet | wildcard => exact ⟨rfl, rfl⟩
  | epsilon | call | predicate | precedence | action => cases accepted

theorem exists_call_of_follow {l : Label} {follow : Nat} (called : l.follow? = some follow) :
    ∃ rule precedence, l = .call follow rule precedence := by
  cases l with
  | call follow' rule precedence =>
      cases called
      exact ⟨rule, precedence, rfl⟩
  | epsilon | atom | range | set | notSet | wildcard | predicate | precedence | action =>
      cases called

theorem next_of_plain {t : Transition} (plain : t.label.follow? = none) : t.next = t.target := by
  rw [Transition.next, plain]
  rfl

/-- A run is a path when the words of the rules contain what is read by them. -/
theorem Reads.path (calls : net.CallsRules)
    (closed : ∀ rule boundary, net.rule rule = .ok boundary →
      wordsTo net.ways net.maxSymbol env boundary.stop boundary.start ≤ env rule)
    (run : net.Reads halt n m w) : Path net.ways net.maxSymbol env halt n m w := by
  induction run with
  | here => exact .here
  | @pass halt n m t w going mem free plain _ ih =>
      have spelled : [] ∈ t.label.words net.maxSymbol env := by
        rw [Label.words_of_free free plain]
        exact Language.nil_mem_one
      exact Path.step going mem spelled ((next_of_plain plain).symm ▸ ih)
  | @consume halt n m t x w going mem accepted _ ih =>
      obtain ⟨consuming, plain⟩ := isEpsilon_of_accepts accepted
      have spelled : [x] ∈ t.label.words net.maxSymbol env :=
        (Label.mem_words_of_consuming consuming).mpr ⟨x, accepted, rfl⟩
      exact Path.step going mem spelled ((next_of_plain plain).symm ▸ ih)
  | @call halt n m t follow rule precedence boundary u w going mem label found _ _ inner ih =>
      obtain ⟨boundary', found', start⟩ := calls.starts n t mem follow rule precedence label
      obtain rfl : boundary' = boundary := by
        rw [found'] at found
        cases found
        rfl
      have spelled : u ∈ t.label.words net.maxSymbol env := by
        rw [label]
        refine closed rule boundary' found' ?_
        rw [← start]
        exact inner.to_halt (calls.idle rule boundary' found')
      have next : t.next = follow := by
        rw [Transition.next, label]
        rfl
      exact Path.step going mem spelled (next ▸ ih)

/-- A path is a run when the words of the rules are read by them. -/
theorem Reads.of_path (calls : net.CallsRules)
    (path : Path net.ways net.maxSymbol net.ruleWords halt n m w) : net.Reads halt n m w := by
  induction path with
  | here => exact .here
  | @step n m t u w going mem spelled _ ih =>
      cases plain : t.label.follow? with
      | none =>
          rw [next_of_plain plain] at ih
          cases consuming : t.label.isEpsilon with
          | true =>
              rw [Label.words_of_free consuming plain, Language.mem_one] at spelled
              subst spelled
              exact .pass going mem consuming plain ih
          | false =>
              obtain ⟨x, accepted, rfl⟩ := (Label.mem_words_of_consuming consuming).mp spelled
              exact .consume going mem accepted ih
      | some follow =>
          obtain ⟨rule, precedence, label⟩ := exists_call_of_follow plain
          have next : t.next = follow := by rw [Transition.next, plain]; rfl
          obtain ⟨boundary, found, start⟩ := calls.starts n t mem follow rule precedence label
          rw [label] at spelled
          obtain ⟨boundary', found', read⟩ : u ∈ net.ruleWords rule := spelled
          rw [found] at found'
          cases found'
          rw [← start] at read
          exact .call going mem label found read (next ▸ ih)

theorem reads_iff_path (calls : net.CallsRules) :
    net.Reads halt n m w ↔ Path net.ways net.maxSymbol net.ruleWords halt n m w := by
  refine ⟨Reads.path calls fun rule boundary found w path => ?_, Reads.of_path calls⟩
  exact ⟨boundary, found, Reads.of_path calls (Path.free path)⟩

/-- The words of a rule are the words along the paths from its start to its end. -/
theorem ruleWords_eq (calls : net.CallsRules) {rule : Int} {boundary : Rule}
    (found : net.rule rule = .ok boundary) : net.ruleWords rule =
      wordsTo net.ways net.maxSymbol net.ruleWords boundary.stop boundary.start := by
  ext w
  constructor
  · rintro ⟨boundary', found', run⟩
    rw [found] at found'
    cases found'
    exact ((reads_iff_path calls).mp run).to_halt (calls.idle rule boundary found)
  · intro path
    exact ⟨boundary, found, (reads_iff_path calls).mpr (Path.free path)⟩

end Network

/-! ### The words of a grammar -/

namespace Draft

/-- The words of the rules are those of their bodies, and a rule without a body has none. -/
def Solves (d : Draft) (env : Int → Language Int) : Prop :=
  ∀ rule, env rule = (d.body? rule).elim 0 fun body => body.words d.net.maxSymbol env

/-- The words that a rule has in every solution. -/
def language (d : Draft) (rule : Int) : Language Int :=
  {w | ∀ env, d.Solves env → w ∈ env rule}

end Draft

namespace Drafted

variable {d : Draft}

theorem callsRules (drafted : Drafted d) : d.net.CallsRules where
  idle := fun rule boundary found =>
    drafted.tidy.idle boundary.stop (.inr (.inr ⟨rule, boundary, found, .inl rfl⟩))
  starts := by
    intro n t mem follow rule precedence label
    cases hs : d.net.get? n with
    | none => simp [ways, hs] at mem
    | some s =>
        simp only [ways, hs, Option.elim_some, State.onward] at mem
        split at mem
        · cases mem
        · next inner =>
            have admits := drafted.wired.edges n s hs t mem
            by_cases entry : s.kind = .tokenStart
            · simp [Admits, entry, label] at admits
            · have stays := (admits_iff_staysIn inner entry).mp admits
              simp only [StaysIn, label] at stays
              obtain ⟨nonneg, boundary, found, start⟩ := startOf?_eq_some_iff.mp stays.1
              exact ⟨boundary, Fragment.rule_eq_ok_iff.mpr ⟨nonneg, found⟩, start.symm⟩

/-- The words along the paths from the start of a rule to its end are those of its body. -/
theorem wordsTo_rule (drafted : Drafted d) {rule : Int} {boundary : Rule}
    (found : d.net.rule rule = .ok boundary) (env : Int → Language Int) :
    wordsTo d.net.ways d.net.maxSymbol env boundary.stop boundary.start =
      (d.body? rule).elim 0 fun body => body.words d.net.maxSymbol env := by
  cases given : d.body? rule with
  | some body =>
      obtain ⟨boundary', found', piece⟩ := drafted.tidy.bodies rule body given
      rw [found] at found'
      cases found'
      exact piece.words env
  | none =>
      have start : d.Open boundary.start := .inr (.inr ⟨rule, boundary, found, .inr ⟨rfl, given⟩⟩)
      exact wordsTo_of_idle (drafted.tidy.idle _ start) (drafted.start_ne_stop found found)

theorem solves_ruleWords (drafted : Drafted d) : d.Solves d.net.ruleWords := by
  intro rule
  cases found : d.net.rule rule with
  | ok boundary => rw [ruleWords_eq drafted.callsRules found, drafted.wordsTo_rule found]
  | error e =>
      have given : d.body? rule = none := by
        refine Option.eq_none_iff_forall_ne_some.mpr fun body given => ?_
        obtain ⟨boundary, found', -⟩ := drafted.tidy.bodies rule body given
        cases found.symm.trans found'
      rw [given]
      refine Language.ext fun w => ⟨?_, fun absent => absurd absent (Language.notMem_zero w)⟩
      rintro ⟨boundary, found', -⟩
      cases found.symm.trans found'

/-- Every solution contains what the rules read. -/
theorem ruleWords_le (drafted : Drafted d) {env : Int → Language Int} (solves : d.Solves env) :
    d.net.ruleWords ≤ env := by
  have closed : ∀ rule boundary, d.net.rule rule = .ok boundary →
      wordsTo d.net.ways d.net.maxSymbol env boundary.stop boundary.start ≤ env rule := by
    intro rule boundary found
    rw [drafted.wordsTo_rule found, ← solves rule]
  rintro rule w ⟨boundary, found, run⟩
  have path := run.path drafted.callsRules closed
  exact closed rule boundary found (path.to_halt (drafted.callsRules.idle rule boundary found))

theorem isLeast_ruleWords (drafted : Drafted d) : IsLeast {env | d.Solves env} d.net.ruleWords :=
  ⟨drafted.solves_ruleWords, fun _ solves => drafted.ruleWords_le solves⟩

theorem language_eq (drafted : Drafted d) : d.language = d.net.ruleWords := by
  funext rule
  ext w
  constructor
  · exact fun all => all d.net.ruleWords drafted.solves_ruleWords
  · exact fun run env solves => drafted.ruleWords_le solves rule run

/-- What a fragment reads up to its end is what its expression says. -/
theorem reads_halt_iff (drafted : Drafted d) {p : Part} (made : p ∈ d.made) (w : List Int) :
    d.net.Reads (some p.fragment.exit) p.fragment.entry p.fragment.exit w ↔
      w ∈ p.expr.words d.net.maxSymbol d.language := by
  rw [drafted.language_eq, ← (drafted.tidy.parts p made).words d.net.ruleWords]
  exact reads_iff_path drafted.callsRules

/-- A run through a fragment is at its end for the first time, and leads from there to the end
again then. -/
theorem reads_part_iff (drafted : Drafted d) {p : Part} (made : p ∈ d.made) (w : List Int) :
    d.net.Reads none p.fragment.entry p.fragment.exit w ↔
      ∃ u v, w = u ++ v ∧ u ∈ p.expr.words d.net.maxSymbol d.language ∧
        d.net.Reads none p.fragment.exit p.fragment.exit v := by
  have calls := drafted.callsRules
  constructor
  · intro run
    obtain ⟨u, v, rfl, first, loop⟩ := ((reads_iff_path calls).mp run).split
    exact ⟨u, v, rfl, (drafted.reads_halt_iff made u).mp ((reads_iff_path calls).mpr first),
      (reads_iff_path calls).mpr loop⟩
  · rintro ⟨u, v, rfl, spelled, loop⟩
    have first := (reads_iff_path calls).mp ((drafted.reads_halt_iff made u).mpr spelled)
    exact (reads_iff_path calls).mpr (first.free.trans ((reads_iff_path calls).mp loop))

/-- As long as a fragment waits, nothing leads on from its end. -/
theorem reads_waiting_iff (drafted : Drafted d) {p : Part} (waits : p ∈ d.waiting) (w : List Int) :
    d.net.Reads none p.fragment.entry p.fragment.exit w ↔
      w ∈ p.expr.words d.net.maxSymbol d.language := by
  have calls := drafted.callsRules
  have idle := drafted.tidy.idle p.fragment.exit (.inr (.inl ⟨p, waits, rfl⟩))
  rw [← drafted.reads_halt_iff (drafted.mem_made p waits), reads_iff_path calls,
    reads_iff_path calls]
  exact ⟨fun path => path.to_halt idle, Path.free⟩

theorem isLeast_language (drafted : Drafted d) : IsLeast {env | d.Solves env} d.language :=
  drafted.language_eq ▸ drafted.isLeast_ruleWords

theorem reads_rule_iff (drafted : Drafted d) {rule : Int} {boundary : Rule}
    (found : d.net.rule rule = .ok boundary) (w : List Int) :
    d.net.Reads none boundary.start boundary.stop w ↔ w ∈ d.language rule := by
  rw [drafted.language_eq]
  constructor
  · exact fun run => ⟨boundary, found, run⟩
  · rintro ⟨boundary', found', run⟩
    cases found.symm.trans found'
    exact run

end Drafted

/-- **A network reads what its grammar says.** Every grammar can be drafted, and in every draft the
words from the start of a rule to its end are those of the least solution of the grammar. From the
entry of a fragment to its exit they are the words of its expression, followed by what leads from
the exit to itself. In a run that halts at the exit nothing does so, nor as long as the fragment
waits. -/
theorem reads_iff_words :
    (∀ (grammar : GrammarKind) (maxSymbol : Int) (bodies : List Expr),
      (∀ e ∈ bodies, e.Formed bodies.length) →
      ∃ d, Drafted d ∧ d.waiting = [] ∧ d.net.grammar = grammar ∧ d.net.maxSymbol = maxSymbol ∧
        d.net.rules.size = bodies.length ∧ ∀ i : Nat, d.body? i = bodies[i]?) ∧
    ∀ d, Drafted d →
      IsLeast {env | d.Solves env} d.language ∧
      (∀ rule boundary, d.net.rule rule = .ok boundary → ∀ w,
        d.net.Reads none boundary.start boundary.stop w ↔ w ∈ d.language rule) ∧
      (∀ p ∈ d.made, ∀ w,
        (d.net.Reads (some p.fragment.exit) p.fragment.entry p.fragment.exit w ↔
          w ∈ p.expr.words d.net.maxSymbol d.language) ∧
        (d.net.Reads none p.fragment.entry p.fragment.exit w ↔
          ∃ u v, w = u ++ v ∧ u ∈ p.expr.words d.net.maxSymbol d.language ∧
            d.net.Reads none p.fragment.exit p.fragment.exit v)) ∧
      (∀ p ∈ d.waiting, ∀ w, d.net.Reads none p.fragment.entry p.fragment.exit w ↔
        w ∈ p.expr.words d.net.maxSymbol d.language) := by
  refine ⟨exists_drafted, fun d drafted => ⟨drafted.isLeast_language, ?rules, ?made, ?waiting⟩⟩
  case rules => exact fun rule boundary found w => drafted.reads_rule_iff found w
  case made => exact fun p made w => ⟨drafted.reads_halt_iff made w, drafted.reads_part_iff made w⟩
  case waiting => exact fun p waits w => drafted.reads_waiting_iff waits w

/-! ### A fragment in a loop -/

/-- The operations for the grammar with the only rule `r = 5* (6 r)?`. -/
def loopSteps : List DraftStep :=
  let atom (symbol : Int) : Operation := .element 0 (.atom symbol) rfl
  let x : Part := ⟨0, ⟨2, 3⟩, .element (.atom 5)⟩
  let s : Part := ⟨0, ⟨4, 8⟩, .star x.expr⟩
  let y : Part := ⟨0, ⟨9, 10⟩, .element (.atom 6)⟩
  let c : Part := ⟨0, ⟨11, 12⟩, .ref 0⟩
  let q : Part := ⟨0, ⟨9, 12⟩, .sequence [y.expr, c.expr]⟩
  let o : Part := ⟨0, ⟨13, 14⟩, .optional q.expr⟩
  let b : Part := ⟨0, ⟨4, 14⟩, .sequence [s.expr, o.expr]⟩
  [(.newRule, [], []),
    (atom 5, [], []),
    (.star 0 x.fragment, [x], []),
    (atom 6, [], [s]),
    (.ruleRef 0 0 0, [], [y, s]),
    (.sequence 0 [y.fragment, c.fragment], [y, c], [s]),
    (.optional 0 q.fragment, [q], [s]),
    (.sequence 0 [s.fragment, o.fragment], [s, o], []),
    (.setRuleBody 0 b.fragment, [b], [])]

/-- The grammar with the only rule `r = 5* (6 r)?`. -/
def loopDraft : Draft :=
  Draft.run { net := { grammar := .parser, maxSymbol := 10 } } loopSteps

theorem loopDraft_drafted : Drafted loopDraft := by
  refine (Drafted.start .parser 10).run ?_
  simp only [loopSteps, Draft.Fits, and_true]
  refine ⟨?rule, ?five, ?star, ?six, ?call, ?joined, ?optional, ?body, ?bodied⟩
  case rule | five | six | call => exact ⟨.refl _, rfl, by simp, by simp [Operation.bodied?]⟩
  case star | optional =>
    exact ⟨.refl _, rfl, by simp [Operation.rule], by simp [Operation.bodied?]⟩
  case joined | body =>
    exact ⟨.swap .., rfl, by simp [Operation.rule], by simp [Operation.bodied?]⟩
  case bodied => exact ⟨.refl _, rfl, by simp [Operation.rule], fun _ _ => rfl⟩

theorem loopDraft_rule : loopDraft.net.rule 0 = .ok ⟨0, 1⟩ :=
  Fragment.rule_eq_ok_iff.mpr ⟨le_rfl, by decide +kernel⟩

/-- A way along edges that ask nothing. -/
theorem Network.Reads.along {net : Network} {n m : Nat} {w : List Int} (way : List Nat)
    (edges : (n :: way).IsChain fun n k => .epsilon k ∈ net.ways n)
    (rest : net.Reads none (way.getLastD n) m w) : net.Reads none n m w := by
  induction way generalizing n with
  | nil => exact rest
  | cons k way ih =>
      rw [List.isChain_cons_cons] at edges
      rw [List.getLastD_cons] at rest
      exact .pass (by simp) edges.1 rfl rfl (ih edges.2 rest)

/-- The way from the start of the rule past both of its parts. -/
theorem loopDraft_reads_nil : loopDraft.net.Reads none 0 1 [] :=
  .along [4, 8, 13, 14, 1] (by decide +kernel) .here

/-- The rule calls itself behind the symbol. -/
theorem reads_iff_words_loop : Drafted loopDraft ∧ [6] ∈ loopDraft.language 0 := by
  refine ⟨loopDraft_drafted, ?_⟩
  have leave : loopDraft.net.Reads none 12 1 [] := .along [14, 1] (by decide +kernel) .here
  have called : loopDraft.net.Reads none 11 1 ([] ++ []) :=
    .call (t := ⟨0, .call 12 0 0⟩) (by simp) (by decide +kernel) rfl loopDraft_rule
      loopDraft_reads_nil leave
  have behind : loopDraft.net.Reads none 10 1 [] := .along [11] (by decide +kernel) called
  have symbol : loopDraft.net.Reads none 9 1 [6] :=
    .consume (t := ⟨10, .atom 6⟩) (by simp) (by decide +kernel) (by decide +kernel) behind
  have run : loopDraft.net.Reads none 0 1 [6] :=
    .along [4, 8, 13, 9] (by decide +kernel) symbol
  exact ((reads_iff_words.2 loopDraft loopDraft_drafted).2.1 0 ⟨0, 1⟩ loopDraft_rule [6]).mp run

/-- A run through the fragment in the loop may go through it again, and then it reads more than the
expression of the fragment says. -/
theorem reads_again_in_loop :
    Drafted loopDraft ∧ ⟨0, ⟨2, 3⟩, .element (.atom 5)⟩ ∈ loopDraft.made ∧
      loopDraft.net.Reads none 2 3 [5, 5] ∧
      [5, 5] ∉ (Expr.element (.atom 5)).words loopDraft.net.maxSymbol loopDraft.language := by
  refine ⟨loopDraft_drafted, ?made, ?run, ?word⟩
  case made =>
    simp only [loopDraft, loopSteps, Draft.run]
    iterate 7 apply Draft.mem_made_apply
    exact List.mem_cons_self
  case run =>
    have symbol : ∀ w, loopDraft.net.Reads none 3 3 w → loopDraft.net.Reads none 2 3 (5 :: w) := by
      intro w rest
      exact .consume (t := ⟨3, .atom 5⟩) (by simp) (by decide +kernel) (by decide +kernel) rest
    exact symbol [5] (.along [6, 7, 4, 5, 2] (by decide +kernel) (symbol [] .here))
  case word =>
    rw [Expr.words]
    intro same
    cases same

end GrammarNet
