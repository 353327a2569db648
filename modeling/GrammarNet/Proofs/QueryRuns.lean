import GrammarNet.Proofs.ContextRuns
import GrammarNet.Proofs.ExpectedTokens
import GrammarNet.Proofs.GrownGraphs

/-!
Runs of queries to a network that is complete.

A session keeps the follow sets that were computed and the call stacks that were made. What is asked
in a session may add to both, and questions that fail may as well. All the same no answer depends on
what was asked before: a follow set that is kept is the one that a lookahead finds
(`FollowMemo.Honest`), so that a question has one answer with any honest memo (`Follow.Steady`), and
a lookahead sees no call stacks but those of its node.

`Session.run_kept` is the induction over a run, `Session.answer_of_history` compares two runs.
-/

namespace GrammarNet

/-! ### Memos that grow -/

namespace FollowMemo

/-- What was kept stays. -/
def Grows (memo memo' : FollowMemo) : Prop :=
  ∀ n found, memo.find? n = some found → memo'.find? n = some found

theorem Grows.refl (memo : FollowMemo) : memo.Grows memo :=
  fun _ _ kept => kept

theorem Grows.trans {memo memo' memo'' : FollowMemo} (first : memo.Grows memo')
    (second : memo'.Grows memo'') : memo.Grows memo'' :=
  fun n found kept => second n found (first n found kept)

theorem grows_insert {memo : FollowMemo} {n : Nat} (absent : memo.find? n = none)
    (found : SymbolSet) : memo.Grows ⟨memo.sets.insert n found⟩ := by
  intro m kept here
  have other : n ≠ m := by
    rintro rfl
    rw [absent] at here
    cases here
  rw [find?, Std.TreeMap.getElem?_insert, if_neg (by simpa using other)]
  exact here

end FollowMemo

/-! ### Questions with one answer -/

namespace Follow

variable {α β : Type} {net : Network}

/-- The question has one answer with all honest memos, to which it may add. -/
def Steady (net : Network) (question : Follow α) : Prop :=
  ∃ answer, ∀ memo : FollowMemo, memo.Honest net →
    ∃ memo', exec question memo = (answer, memo') ∧ memo'.Honest net ∧ memo.Grows memo'

theorem Steady.pure (a : α) : Steady net (pure a) :=
  ⟨.ok a, fun memo honest => ⟨memo, rfl, honest, .refl memo⟩⟩

theorem Steady.throw (e : LookaheadError) : Steady net (throw e : Follow α) :=
  ⟨.error e, fun memo honest => ⟨memo, rfl, honest, .refl memo⟩⟩

theorem Steady.ofExcept (answer : Except LookaheadError α) :
    Steady net (MonadExcept.ofExcept answer) :=
  ⟨answer, fun memo honest => ⟨memo, exec_ofExcept answer memo, honest, .refl memo⟩⟩

/-- A question that goes on after another has one answer when both have. -/
theorem Steady.bind {question : Follow α} {next : α → Follow β} (first : Steady net question)
    (rest : ∀ a, Steady net (next a)) : Steady net (question >>= next) := by
  obtain ⟨answer, first⟩ := first
  cases answer with
  | error e =>
      refine ⟨.error e, fun memo honest => ?_⟩
      obtain ⟨memo', asked, kept⟩ := first memo honest
      exact ⟨memo', by rw [exec_bind, asked], kept⟩
  | ok a =>
      obtain ⟨answer', rest⟩ := rest a
      refine ⟨answer', fun memo honest => ?_⟩
      obtain ⟨memo', asked, honest', grows⟩ := first memo honest
      obtain ⟨memo'', answered, honest'', grows'⟩ := rest memo' honest'
      refine ⟨memo'', ?_, honest'', grows.trans grows'⟩
      rw [exec_bind, asked]
      exact answered

/-- A follow set is the one that a lookahead finds, and so is a failure to find one. -/
theorem set_steady (n : Nat) : Steady net (set net n) := by
  refine ⟨net.lookLocally n {}, fun memo honest => ?_⟩
  cases look : net.lookLocally n {} with
  | error e =>
      have absent : memo.find? n = none := by
        refine Option.eq_none_iff_forall_ne_some.mpr fun found kept => ?_
        cases (honest n found kept).symm.trans look
      exact ⟨memo, by simp [set, absent, look], honest, .refl memo⟩
  | ok found =>
      obtain ⟨memo', asked, honest'⟩ := exec_set honest look
      refine ⟨memo', asked, honest', ?_⟩
      cases kept : memo.find? n with
      | some kept' =>
          obtain rfl : memo = memo' := by simpa [set, kept] using congrArg Prod.snd asked
          exact .refl memo
      | none =>
          obtain rfl : ⟨memo.sets.insert n found⟩ = memo' := by
            simpa [set, kept, look, FollowMemo.publish] using congrArg Prod.snd asked
          exact FollowMemo.grows_insert kept found

/-- Going outwards has one answer, also when a state of the chain has no call. -/
theorem outwards_steady (chain : ParseChain) (expected following : SymbolSet) :
    Steady net (outwards net expected following chain) := by
  induction chain generalizing expected following with
  | nil => exact .pure _
  | cons invoking rest ih =>
      rw [outwards]
      split
      · exact .bind (.ofExcept _) fun follow => .bind (set_steady follow) fun next => ih _ next
      · exact .pure _

theorem expected_steady (n : Int) (chain : ParseChain) : Steady net (expected net n chain) := by
  unfold expected
  by_cases missing : n < 0 ∨ net.states.size ≤ n
  · rw [if_pos missing]
    exact ⟨.error (.noSuchState n), fun memo honest => ⟨memo, rfl, honest, .refl memo⟩⟩
  · rw [if_neg missing]
    cases net.state? n with
    | none => exact .throw _
    | some s =>
        refine .bind (set_steady n.toNat) fun following => ?_
        split
        · exact outwards_steady chain _ following
        · exact .pure following

end Follow

/-! ### Sessions -/

/-- A question about what can follow. -/
inductive Question where
  /-- The follow set of a state. -/
  | next (state : Nat)
  /-- A lookahead with the stacks of a node. -/
  | look (state stack : Option Nat) (options : LookaheadOptions) (stop : Option Nat)
  /-- The lookahead for each alternative of a state. -/
  | alternatives (state : Option Nat)
  /-- The symbols expected in a parse. -/
  | expected (state : Int) (chain : ParseChain)

/-- What a question is answered with. -/
inductive Answer where
  | symbols (found : SymbolSet)
  | alternatives (found : List (Option SymbolSet))

namespace Question

/-- The node whose stacks a question is about. -/
def stack : Question → Option Nat
  | look _ stack _ _ => stack
  | next _ | alternatives _ | expected _ _ => none

/-- Asks a question. -/
def ask (net : Network) (graph : StackGraph) : Question → Follow Answer
  | next state => do
      let found ← Follow.set net state
      pure (.symbols found)
  | look state stack options stop => do
      let found ← MonadExcept.ofExcept (net.look graph state stack options stop)
      pure (.symbols found)
  | alternatives state => do
      let found ← MonadExcept.ofExcept (net.decisionLookahead state)
      pure (.alternatives found)
  | expected state chain => do
      let found ← Follow.expected net state chain
      pure (.symbols found)

variable {g h : StackGraph}

/-- A question has one answer with any honest memo. -/
theorem ask_steady (net : Network) (g : StackGraph) (question : Question) :
    Follow.Steady net (question.ask net g) := by
  cases question with
  | next state => exact .bind (Follow.set_steady state) fun _ => .pure _
  | look state stack options stop => exact .bind (.ofExcept _) fun _ => .pure _
  | alternatives state => exact .bind (.ofExcept _) fun _ => .pure _
  | expected state chain => exact .bind (Follow.expected_steady state chain) fun _ => .pure _

/-- A question is the same question when call stacks are made. -/
theorem ask_grow (net : Network) (grows : g.Grows h) {question : Question}
    (names : g.Names question.stack) :
    question.ask net h = question.ask net g := by
  cases question with
  | look state stack options stop =>
      have same : net.look h state stack options stop = net.look g state stack options stop :=
        Network.look_grow grows names
      rw [ask, ask, same]
  | next state => rfl
  | alternatives state => rfl
  | expected state chain => rfl

end Question

/-- What queries to a network work on. -/
structure Session where
  net : Network
  /-- The follow sets computed so far. -/
  memo : FollowMemo := {}
  /-- The call stacks made so far, with the tables of canonical ones. -/
  contexts : ContextStore := {}

/-- A query asks a question, or makes, merges or looks up call stacks. -/
inductive Query where
  | ask (question : Question)
  | contexts (op : ContextOp)

namespace Session

/-- The answer to a question. -/
def answer (s : Session) (question : Question) : Except LookaheadError Answer :=
  (Follow.exec (question.ask s.net s.contexts.graph) s.memo).1

/-- The session after a query, which may have failed. -/
def exec (s : Session) : Query → Session
  | .ask question =>
      { s with memo := (Follow.exec (question.ask s.net s.contexts.graph) s.memo).2 }
  | .contexts op => { s with contexts := s.contexts.exec op }

/-- The session after a list of queries. -/
def run (s : Session) (queries : List Query) : Session :=
  queries.foldl exec s

variable {s t u : Session}

/-- Nothing wrong is kept. -/
structure Honest (s : Session) : Prop where
  memo : s.memo.Honest s.net
  contexts : s.contexts.Sound

/-- The network is the same, and follow sets and call stacks are kept. -/
structure Kept (s t : Session) : Prop where
  net : t.net = s.net
  memo : s.memo.Grows t.memo
  contexts : s.contexts.Grows t.contexts

theorem Kept.refl (s : Session) : s.Kept s :=
  ⟨rfl, .refl s.memo, .refl s.contexts⟩

theorem Kept.trans (first : s.Kept t) (second : t.Kept u) : s.Kept u :=
  ⟨second.net.trans first.net, first.memo.trans second.memo, first.contexts.trans second.contexts⟩

theorem exec_kept (honest : s.Honest) (query : Query) :
    (s.exec query).Honest ∧ s.Kept (s.exec query) := by
  cases query with
  | ask question =>
      obtain ⟨answer, steady⟩ := question.ask_steady s.net s.contexts.graph
      obtain ⟨memo', asked, honest', grows⟩ := steady s.memo honest.memo
      rw [exec, asked]
      exact ⟨⟨honest', honest.contexts⟩, ⟨rfl, grows, .refl _⟩⟩
  | contexts op =>
      obtain ⟨sound, grows⟩ := ContextStore.exec_sound honest.contexts op
      exact ⟨⟨honest.memo, sound⟩, ⟨rfl, .refl _, grows⟩⟩

/-- A run keeps a session honest and keeps what is in it. -/
theorem run_kept (honest : s.Honest) (queries : List Query) :
    (s.run queries).Honest ∧ s.Kept (s.run queries) := by
  induction queries generalizing s with
  | nil => exact ⟨honest, .refl s⟩
  | cons query queries ih =>
      obtain ⟨honest, first⟩ := exec_kept honest query
      obtain ⟨honest, rest⟩ := ih honest
      exact ⟨honest, first.trans rest⟩

/-- An answer depends on the network and on the stacks of the question. -/
theorem answer_eq (hs : s.Honest) (ht : t.Honest) (net : t.net = s.net)
    (grows : s.contexts.graph.Grows t.contexts.graph) {question : Question}
    (names : s.contexts.graph.Names question.stack) : t.answer question = s.answer question := by
  obtain ⟨answer, steady⟩ := question.ask_steady s.net s.contexts.graph
  have same := Question.ask_grow s.net grows names
  obtain ⟨_, asked, -⟩ := steady s.memo hs.memo
  obtain ⟨_, asked', -⟩ := steady t.memo (net ▸ ht.memo)
  rw [Session.answer, Session.answer, net, same, asked, asked']

/-- In a session on a network, with call stacks made before, a follow set that is kept is the one
that a lookahead finds. A query changes neither the network nor a follow set that is kept. A
question about stacks that are there at some moment has at any later moment the answer that it would
have as the first query of the session. -/
theorem answer_of_history (net : Network) (ops : List ContextOp) (before after : List Query) :
    let start : Session := { net, contexts := .reached ops }
    let there := start.run before
    let later := there.run after
    (∀ n found, there.memo.find? n = some found → net.lookLocally n {} = .ok found) ∧
      there.Kept later ∧ later.net = net ∧
      ∀ question : Question, there.contexts.graph.Names question.stack →
        later.answer question = { start with contexts := there.contexts }.answer question := by
  intro start there later
  have sound : (ContextStore.reached ops).Sound :=
    (ContextStore.run_sound ContextStore.sound_start ops).1
  have honest : start.Honest := ⟨Follow.honest_empty net, sound⟩
  obtain ⟨honest', kept⟩ := run_kept honest before
  obtain ⟨honest'', kept'⟩ := run_kept honest' after
  have same : there.net = net := kept.net
  refine ⟨?_, kept', kept'.net.trans same, fun question names => ?_⟩
  · rw [← same]
    exact honest'.memo
  · have first : Honest { start with contexts := there.contexts } :=
      ⟨honest.memo, honest'.contexts⟩
    exact answer_eq first honest'' (kept'.net.trans same) kept'.contexts.graph names

/-- The same inside of a sum, with the stack of a call that was made first: what is expected in a
parse is asked before, and the stack is merged with others after that. -/
theorem answer_of_history_leftSum :
    let start : Session := { net := .leftSum, contexts := .reached [.single none ⟨8, by decide⟩] }
    let there := start.run [.ask (.expected 0 [7, -1])]
    let later := there.run [.contexts (.mergeAll 0 [some 1, none]), .ask (.next 2)]
    let question : Question := .look (some 0) (some 1) {} none
    there.contexts.graph.Names question.stack ∧
      later.answer question = { start with contexts := there.contexts }.answer question := by
  intro start there later question
  have names : there.contexts.graph.Names question.stack :=
    StackGraph.names_some.mpr (by decide)
  exact ⟨names, (answer_of_history _ _ _ _).2.2.2 question names⟩

end Session

end GrammarNet
