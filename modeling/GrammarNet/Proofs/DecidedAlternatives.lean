import GrammarNet.Proofs.BranchingStates
import GrammarNet.Proofs.CallSite
import GrammarNet.Proofs.UnseenPredicates
import Mathlib.Tactic.Choose

/-!
The lookahead of the alternatives of a decision.

Each alternative is looked at by a walk of its own, within the rule and without looking through
predicates. When it decides, no predicate was met, so the walk is the one that gives the follow set
of its target (`next_of_deciding`). A decision of an assembled network does nothing but pass on to
its alternatives, so what can follow it is what can follow one of them (`finds_of_passing`). Loops
and calls between the alternatives do not matter: a walk finds what is emitted in the positions that
it can reach, in whatever order it comes to them.

An alternative is left undecided in three cases (`undecided_iff`): a predicate is met, nothing is
found, or an edge is met that consumes the mark of a predicate as a symbol. The last is not meant to
be, and it is possible in lexers, where the mark is a code point (`undecided_by_symbol`).
-/

namespace GrammarNet

open Lookahead

/-- The ground of the walk for an alternative. -/
abbrev Lookahead.Ground.unasking (net : Network) : Ground :=
  { net, graph := .empty, options := { seeThroughPredicates := false } }

namespace Network

theorem deciding_eq_none {found : SymbolSet} :
    deciding found = none ↔ Symbol.invalid ∈ found ∨ found = ∅ := by
  unfold deciding
  rw [← SymbolSet.contains_iff, ← SymbolSet.isEmpty_iff]
  split <;> simp_all [or_comm]

theorem deciding_eq_some {found own : SymbolSet} (decides : deciding found = some own) :
    found = own ∧ ¬ Symbol.invalid ∈ found := by
  have kept : ¬ (Symbol.invalid ∈ found ∨ found = ∅) := by
    rw [← deciding_eq_none, decides]
    exact Option.some_ne_none own
  refine ⟨?_, fun mem => kept (.inl mem)⟩
  unfold deciding at decides
  split at decides
  · cases decides
  · exact Option.some.inj decides

variable {net : Network}

/-- The walks for alternatives have answers, and the lookahead of a state is made of them. -/
theorem RuleClosed.decisionLookahead_eq (closed : net.RuleClosed) :
    ∃ look : Nat → SymbolSet,
      (∀ m, net.lookLocally m { seeThroughPredicates := false } = .ok (look m)) ∧
      ∀ n s, net.get? n = some s → net.decisionLookahead (some n) =
        .ok (s.transitions.map fun t => deciding (look t.target)) := by
  have answers : ∀ m, ∃ found,
      net.lookLocally m { seeThroughPredicates := false } = .ok found := by
    intro m
    have follows : net.All fun _ s => ∀ t ∈ s.transitions, ∀ follow ∈ t.label.follow?.toList,
        (net.get? follow).isSome :=
      fun n s hs t mem => (closed.live n s hs t mem).2
    have found : ∃ found, walk (.unasking net) m StackGraph.root = .ok found :=
      exists_walk follows (StackGraph.returnsLive_root _ _)
    exact found
  choose look answer using answers
  refine ⟨look, answer, fun n s hs => ?_⟩
  rw [decisionLookahead, Option.bind_some, hs]
  simp only [answer]
  exact List.mapM_pure

end Network

namespace Lookahead

variable {net : Network} {n : Nat}

/-! ### An alternative that decides -/

/-- What decides is the follow set of the target. -/
theorem next_of_deciding {found own : SymbolSet}
    (answer : net.lookLocally n { seeThroughPredicates := false } = .ok found)
    (decides : Network.deciding found = some own) : Follow.Next net n own := by
  obtain ⟨rfl, unmarked⟩ := Network.deciding_eq_some decides
  have unmet : ¬ MeetsPredicate (.unasking net) n StackGraph.root :=
    fun meets => unmarked (mem_walk_of_predicate answer rfl meets)
  exact Follow.next_of_look ((walk_seeing_eq true unmet).trans answer)

/-- What can follow a state that only passes on is what can follow the targets of its edges. -/
theorem finds_of_passing {graph : StackGraph} {atEnd : Bool} {base : Nat} {s : State} {x : Int}
    (hs : net.get? n = some s) (kind : s.kind ≠ .ruleStop)
    (plain : ∀ t ∈ s.transitions, t.label = .epsilon) :
    Finds net graph atEnd n base x ↔
      ∃ t ∈ s.transitions, Finds net graph atEnd t.target base x := by
  have free := free_clear net graph atEnd
  constructor
  · rintro ⟨p, reach, shown⟩
    rcases reach.cases_head with rfl | ⟨q, move, reach⟩
    · rcases shown with ⟨s', t, hs', -, mem, accepts⟩ | ⟨-, ⟨s', hs', stop⟩, -⟩
      · cases hs.symm.trans hs'
        rw [plain t mem] at accepts
        cases accepts
      · cases hs.symm.trans hs'
        exact absurd stop kind
    · obtain ⟨i, t, ht, crosses⟩ := move.by_edge hs kind
      have mem := List.mem_of_getElem? ht
      obtain rfl := crosses.of_passes (by rw [plain t mem]; rfl)
      exact ⟨t, mem, p, reach, shown⟩
  · rintro ⟨t, mem, p, reach, shown⟩
    obtain ⟨i, ht⟩ := List.mem_iff_getElem?.mp mem
    have pass : LookaheadOptions.passes { addEndOfInput := atEnd } t.label = true := by
      rw [plain t mem]
      rfl
    exact ⟨p, .head (.cross hs kind (free.going _ _) ht (.pass pass)) reach, shown⟩

/-- A decision of an assembled network has a slot for each of its alternatives, in their order. One
that decides has the follow set of its target. The follow set of the decision is made of those of
all targets, so of the entries alone when all alternatives decide. -/
theorem alternatives_agree {a : Assembly} (assembled : Assembled a) (mem : n ∈ a.net.decisions) :
    ∃ s entries next, a.net.get? n = some s ∧
      a.net.decisionLookahead (some n) = .ok entries ∧ Follow.Next a.net n next ∧
      List.Forall₂
        (fun t entry => ∃ own, Follow.Next a.net t.target own ∧ ∀ found ∈ entry, found = own)
        s.transitions entries ∧
      (∀ x, x ∈ next ↔ ∃ t ∈ s.transitions, ∃ own, Follow.Next a.net t.target own ∧ x ∈ own) ∧
      (none ∉ entries → ∀ x, x ∈ next ↔ ∃ found, some found ∈ entries ∧ x ∈ found) := by
  have wired := assembled.sound.wired
  obtain ⟨s, hs, decides, plain⟩ := assembled.decision mem
  have kind : s.kind ≠ .ruleStop := fun stop => by simp [stop, StateKind.isDecision] at decides
  obtain ⟨look, answer, entries⟩ := wired.ruleClosed.decisionLookahead_eq
  choose own owned finds using Follow.next_finds wired.ruleClosed wired.noEntryResumed
  have same : ∀ m found, Network.deciding (look m) = some found → found = own m :=
    fun m found decides => (next_of_deciding (answer m) decides).unique (owned m)
  have parts : ∀ x, x ∈ own n ↔ ∃ t ∈ s.transitions, x ∈ own t.target := by
    intro x
    simp only [finds, finds_of_passing hs kind plain]
  refine ⟨s, _, own n, hs, entries n s hs, owned n, ?_, fun x => ?_, fun all x => ?_⟩
  · rw [List.forall₂_map_right_iff]
    exact List.forall₂_same.mpr fun t _ => ⟨own t.target, owned t.target, same t.target⟩
  · refine (parts x).trans (exists_congr fun t => and_congr_right fun _ => ?_)
    constructor
    · exact fun found => ⟨own t.target, owned t.target, found⟩
    · rintro ⟨found, next, mem⟩
      exact (owned t.target).unique next ▸ mem
  · have entry : ∀ t ∈ s.transitions, Network.deciding (look t.target) = some (own t.target) := by
      intro t mem
      cases decided : Network.deciding (look t.target) with
      | none => exact absurd (List.mem_map.mpr ⟨t, mem, decided⟩) all
      | some found => rw [same t.target found decided]
    refine (parts x).trans ⟨?_, ?_⟩
    · rintro ⟨t, mem, found⟩
      exact ⟨own t.target, List.mem_map.mpr ⟨t, mem, entry t mem⟩, found⟩
    · rintro ⟨found, mem, here⟩
      obtain ⟨t, mem, decided⟩ := List.mem_map.mp mem
      exact ⟨t, mem, same t.target found decided ▸ here⟩

/-- A lexer with a rule for the small letters and a rule for the blank. In state `8` a mode chooses
between them. -/
def letters : Assembly :=
  Assembly.build { net := { grammar := .lexer, maxSymbol := 127 } }
    [.newLexerRule 1, .newLexerRule 2, .element 0 (.range 97 122) rfl, .setRuleBody 0 ⟨4, 5⟩,
      .element 1 (.atom 32) rfl, .setRuleBody 1 ⟨6, 7⟩, .newMode "main" [0, 1]]

theorem letters_assembled : Assembled letters :=
  (Assembled.start .lexer 127).build (by decide)

set_option maxRecDepth 20000 in
theorem letters_entry :
    letters.net.get? 8 =
      some
        { number := 8, kind := .tokenStart, rule := -1, decision := some 0
          transitions := [⟨0, .epsilon⟩, ⟨2, .epsilon⟩] } :=
  rfl

set_option maxRecDepth 20000 in
theorem letters_decisions : letters.net.decisions = #[8] :=
  rfl

theorem letters_decided :
    letters.net.decisionLookahead (some 8) = .ok [some (.interval 97 122), some (.single 32)] := by
  have first : letters.net.lookLocally 0 { seeThroughPredicates := false } =
      .ok (.interval 97 122) :=
    Loop.run_eq_of_runFor (n := 40) rfl _
  have second : letters.net.lookLocally 2 { seeThroughPredicates := false } = .ok (.single 32) :=
    Loop.run_eq_of_runFor (n := 40) rfl _
  rw [Network.decisionLookahead, Option.bind_some, letters_entry]
  simp only [List.mapM_cons, List.mapM_nil, first, second]
  rfl

/-- Both alternatives of the mode are decided, and together they are all that can come next. -/
theorem alternatives_agree_letters :
    Assembled letters ∧ 8 ∈ letters.net.decisions ∧
      letters.net.decisionLookahead (some 8) =
        .ok [some (.interval 97 122), some (.single 32)] ∧
      Follow.Next letters.net 0 (.interval 97 122) ∧ Follow.Next letters.net 2 (.single 32) ∧
      ∃ next, Follow.Next letters.net 8 next ∧
        ∀ x, x ∈ next ↔ x ∈ SymbolSet.interval 97 122 ∨ x ∈ SymbolSet.single 32 := by
  have mem : 8 ∈ letters.net.decisions := by simp [letters_decisions]
  obtain ⟨s, entries, next, hs, decided, owned, agree, -, all⟩ :=
    alternatives_agree letters_assembled mem
  rw [letters_entry] at hs
  cases hs
  rw [letters_decided] at decided
  cases decided
  obtain ⟨⟨first, ownedFirst, isFirst⟩, agree⟩ := List.forall₂_cons.mp agree
  obtain ⟨⟨second, ownedSecond, isSecond⟩, -⟩ := List.forall₂_cons.mp agree
  obtain rfl := isFirst _ rfl
  obtain rfl := isSecond _ rfl
  refine ⟨letters_assembled, mem, letters_decided, ownedFirst, ownedSecond, next, owned,
    fun x => (all (by simp) x).trans ?_⟩
  simp

/-! ### An alternative that does not decide -/

/-- The walk meets no edge that consumes anything, and does not come to the end of the rule. -/
def ComesToNothing (ground : Ground) (n base : Nat) : Prop :=
  (∀ x, ¬ MeetsSymbol ground n base x) ∧ ¬ MeetsEnd ground n base

/-- Whether a walk decides. -/
theorem deciding_eq_none_iff {found : SymbolSet}
    (answer : net.lookLocally n { seeThroughPredicates := false } = .ok found) :
    Network.deciding found = none ↔
      MeetsPredicate (.unasking net) n StackGraph.root ∨
      MeetsSymbol (.unasking net) n StackGraph.root Symbol.invalid ∨
      ComesToNothing (.unasking net) n StackGraph.root := by
  have met : ∀ x, x ∈ found ↔ Notes (.unasking net) n StackGraph.root x :=
    fun x => mem_walk_iff answer
  rw [Network.deciding_eq_none, invalid_mem_walk_iff answer rfl, or_assoc]
  refine or_congr_right' fun unasked => or_congr_right ⟨fun empty => ?_, fun nothing => ?_⟩
  · have unmet : ∀ x, ¬ Notes (.unasking net) n StackGraph.root x := by
      intro x notes
      rw [← met, empty] at notes
      exact SymbolSet.not_mem_empty notes
    exact ⟨fun x meets => unmet x (.symbol meets), fun meets => unmet _ (.ending meets)⟩
  · ext x
    rw [met]
    refine iff_of_false (fun notes => ?_) SymbolSet.not_mem_empty
    cases notes with
    | symbol meets => exact nothing.1 x meets
    | predicate _ meets => exact unasked meets
    | ending meets => exact nothing.2 meets

/-- An alternative of a state in an assembled network is left undecided when the walk from its
target meets a predicate, when it meets an edge that consumes the mark of a predicate, and when it
meets no symbol and no end of the rule; else it is not. -/
theorem undecided_iff {a : Assembly} (assembled : Assembled a) {s : State}
    (hs : a.net.get? n = some s) :
    ∃ entries, a.net.decisionLookahead (some n) = .ok entries ∧
      List.Forall₂
        (fun t entry => entry = none ↔
          MeetsPredicate (.unasking a.net) t.target StackGraph.root ∨
          MeetsSymbol (.unasking a.net) t.target StackGraph.root Symbol.invalid ∨
          ComesToNothing (.unasking a.net) t.target StackGraph.root)
        s.transitions entries := by
  have wired := assembled.sound.wired
  obtain ⟨look, answer, entries⟩ := wired.ruleClosed.decisionLookahead_eq
  refine ⟨_, entries n s hs, ?_⟩
  rw [List.forall₂_map_right_iff]
  exact List.forall₂_same.mpr fun t _ => deciding_eq_none_iff (answer t.target)

/-- A lexer with a rule for the code points up to `127` and a rule for the blank `32`. In state `8` a
mode chooses between them. -/
def codePoints : Assembly :=
  Assembly.build { net := { grammar := .lexer, maxSymbol := 127 } }
    [.newLexerRule 1, .newLexerRule 2, .element 0 (.range 0 127) rfl, .setRuleBody 0 ⟨4, 5⟩,
      .element 1 (.atom 32) rfl, .setRuleBody 1 ⟨6, 7⟩, .newMode "main" [0, 1]]

theorem codePoints_assembled : Assembled codePoints :=
  (Assembled.start .lexer 127).build (by decide)

set_option maxRecDepth 20000 in
theorem codePoints_entry :
    codePoints.net.get? 8 =
      some
        { number := 8, kind := .tokenStart, rule := -1, decision := some 0
          transitions := [⟨0, .epsilon⟩, ⟨2, .epsilon⟩] } :=
  rfl

set_option maxRecDepth 20000 in
theorem codePoints_decisions : codePoints.net.decisions = #[8] :=
  rfl

/-- The same for the entry of a mode. -/
theorem undecided_iff_codePoints :
    Assembled codePoints ∧
      ∃ entries, codePoints.net.decisionLookahead (some 8) = .ok entries ∧
        List.Forall₂
          (fun (t : Transition) entry => entry = none ↔
            MeetsPredicate (.unasking codePoints.net) t.target StackGraph.root ∨
            MeetsSymbol (.unasking codePoints.net) t.target StackGraph.root Symbol.invalid ∨
            ComesToNothing (.unasking codePoints.net) t.target StackGraph.root)
          [⟨0, .epsilon⟩, ⟨2, .epsilon⟩] entries :=
  ⟨codePoints_assembled, undecided_iff codePoints_assembled codePoints_entry⟩

/-- An alternative may be left undecided though no predicate is met and there are symbols. -/
theorem undecided_by_symbol :
    Assembled codePoints ∧ 8 ∈ codePoints.net.decisions ∧
      codePoints.net.get? 8 =
        some
          { number := 8, kind := .tokenStart, rule := -1, decision := some 0
            transitions := [⟨0, .epsilon⟩, ⟨2, .epsilon⟩] } ∧
      codePoints.net.decisionLookahead (some 8) = .ok [none, some (.single 32)] ∧
      ¬ MeetsPredicate (.unasking codePoints.net) 0 StackGraph.root ∧
      ¬ ComesToNothing (.unasking codePoints.net) 0 StackGraph.root := by
  have first : codePoints.net.lookLocally 0 { seeThroughPredicates := false } =
      .ok (.interval 0 127) :=
    Loop.run_eq_of_runFor (n := 40) rfl _
  have second : codePoints.net.lookLocally 2 { seeThroughPredicates := false } =
      .ok (.single 32) :=
    Loop.run_eq_of_runFor (n := 40) rfl _
  have unasked : codePoints.net.All fun _ s =>
      ∀ t ∈ s.transitions, t.label.isPredicate = false := by
    decide
  refine ⟨codePoints_assembled, by simp [codePoints_decisions], codePoints_entry, ?_, ?_, ?_⟩
  · rw [Network.decisionLookahead, Option.bind_some, codePoints_entry]
    simp only [List.mapM_cons, List.mapM_nil, first, second]
    rfl
  · intro meets
    obtain ⟨m, s, t, hs, mem, asks⟩ := meets.exists_edge
    rw [unasked m s hs t mem] at asks
    cases asks
  · intro nothing
    have found : (1 : Int) ∈ SymbolSet.interval 0 127 := by simp
    exact nothing.1 1 (((mem_walk_iff first).mp found).meetsSymbol (by decide))

end Lookahead

end GrammarNet
