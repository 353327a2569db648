import GrammarNet.Lookahead.Recursive
import GrammarNet.Proofs.Rounds

/-!
The walk finds what the recursion finds.

A walk keeps as a list of work what the recursion keeps in its calls. So the work that is left is
done by the recursion, piece by piece (`remaining`), and no round changes what this comes to
(`Took.remaining_eq`). Two things are done at other moments: the walk records the end of a stack and
looks for missing return states when it enters the end of a rule, the recursion when it gets to the
entry. This is no difference, because no visit depends on what was found before, and because every
visit comes to an end (`visit_settles`): each position is entered once.

* `Settles`: a visit comes to an end, and what it does.
* `visit_settles`: all visits do.
* `look_eq_recursive`: the walk and the recursion have the same answer, or both fail.
-/

namespace GrammarNet

namespace Lookahead

variable {ground : Ground} {net : Network} {m t u : Marks}

/-- A procedure that was carried out, with its outcome. -/
abbrev Visiting (α : Type) := ExceptT LookaheadError Option α

/-- The procedure comes to an end with this outcome. -/
def Visiting.done {α : Type} (outcome : Except LookaheadError α) : Visiting α :=
  ExceptT.mk (some outcome)

open Visiting

/-! ### The cases of a visit -/

/-- Follows an edge of a state. -/
def follow (ground : Ground) (n : Nat) (stack : CallStack) (m : Marks) (edge : Transition × Nat) :
    Visiting Marks :=
  match edge.1.label with
  | .call returnTo rule _ =>
      if m.running.contains rule then pure m
      else do
        let called ← ground.visit edge.1.target (stack.enter ⟨n, edge.2, rule, returnTo⟩)
          (m.set rule true)
        return called.set rule false
  | .predicate .. | .precedence _ =>
      if ground.options.seeThroughPredicates then ground.visit edge.1.target stack m
      else pure (m.record Symbol.invalid)
  | .epsilon | .action .. => ground.visit edge.1.target stack m
  | .atom _ | .range .. | .set _ | .notSet _ | .wildcard =>
      pure (m.recordAll (consumed ground.net.maxSymbol edge.1.label))

/-- Takes a way to leave a rule. -/
def resume (ground : Ground) (m : Marks) (way : CallStack.Return) : Visiting Marks :=
  match way with
  | .ended => pure (m.record ground.options.boundary)
  | .resume r rest =>
      if (ground.net.state? r).isSome then ground.visit r.toNat rest m
      else throw (.missingReturn r)

section Cases

variable {n : Nat} {s : State} {stack : CallStack}

theorem visit_absent (dead : ground.net.get? n = none) : ground.visit n stack m = pure m := by
  rw [Ground.visit, dead]

theorem visit_known (seen : m.entered.contains (stack.key n) = true) :
    ground.visit n stack m = pure m := by
  rw [Ground.visit]
  split
  · rfl
  · rw [if_pos seen]

theorem visit_finished (hs : ground.net.get? n = some s)
    (fresh : ¬ m.entered.contains (stack.key n) = true)
    (atEnd : (ground.stop = some n ∨ s.kind = .ruleStop) ∧ stack.isEmpty = true) :
    ground.visit n stack m =
      pure ((m.enter (stack.key n)).record ground.options.boundary) := by
  rw [Ground.visit, hs]
  simp only [if_neg fresh, if_pos atEnd]

theorem visit_left (hs : ground.net.get? n = some s)
    (fresh : ¬ m.entered.contains (stack.key n) = true) (inner : ¬ stack.isEmpty = true)
    (kind : s.kind = .ruleStop) :
    ground.visit n stack m = do
      let left ← (stack.returns ground.graph).foldlM (resume ground)
        ((m.enter (stack.key n)).set s.rule false)
      return left.set s.rule (m.running.contains s.rule) := by
  rw [Ground.visit, hs]
  simp only [if_neg fresh, if_neg fun atEnd : _ ∧ _ => inner atEnd.2, if_pos kind]
  rfl

theorem visit_opened (hs : ground.net.get? n = some s)
    (fresh : ¬ m.entered.contains (stack.key n) = true)
    (going : ¬ ((ground.stop = some n ∨ s.kind = .ruleStop) ∧ stack.isEmpty = true))
    (kind : s.kind ≠ .ruleStop) :
    ground.visit n stack m =
      s.transitions.zipIdx.foldlM (follow ground n stack) (m.enter (stack.key n)) := by
  rw [Ground.visit, hs]
  simp only [if_neg fresh, if_neg going, if_neg kind]
  rfl

end Cases

/-! ### What visits do -/

@[simp] theorem recordAll_empty (m : Marks) : m.recordAll ∅ = m := by
  have same : m.found ∪ ∅ = m.found := by
    ext x
    simp [SymbolSet.mem_union, SymbolSet.not_mem_empty]
  rw [Marks.recordAll, same]

theorem record_recordAll (m : Marks) (x : Int) (found : SymbolSet) :
    (m.recordAll found).record x = (m.record x).recordAll found := by
  have same : (m.found ∪ found).addSymbol x = m.found.addSymbol x ∪ found := by
    ext y
    simp only [SymbolSet.mem_addSymbol, SymbolSet.mem_union, or_assoc]
  rw [Marks.record, Marks.recordAll, same]
  rfl

theorem recordAll_recordAll (m : Marks) (symbols found : SymbolSet) :
    (m.recordAll found).recordAll symbols = (m.recordAll symbols).recordAll found := by
  have same : m.found ∪ found ∪ symbols = m.found ∪ symbols ∪ found := by
    ext y
    simp only [SymbolSet.mem_union]
    exact or_right_comm
  simp only [Marks.recordAll, same]

/-- The second marks come later: what was entered stays entered, and the same rules are being run. -/
structure Marks.Later (m t : Marks) : Prop where
  entered : ∀ k, m.entered.contains k = true → t.entered.contains k = true
  running : ∀ r, r ∈ t.running ↔ r ∈ m.running

theorem Marks.Later.refl (m : Marks) : m.Later m :=
  ⟨fun _ seen => seen, fun _ => Iff.rfl⟩

theorem Marks.Later.trans (first : m.Later t) (second : t.Later u) : m.Later u :=
  ⟨fun k seen => second.entered k (first.entered k seen),
    fun r => (second.running r).trans (first.running r)⟩

theorem Marks.later_record (m : Marks) (x : Int) : m.Later (m.record x) :=
  ⟨fun _ seen => seen, fun _ => Iff.rfl⟩

theorem Marks.later_recordAll (m : Marks) (symbols : SymbolSet) : m.Later (m.recordAll symbols) :=
  ⟨fun _ seen => seen, fun _ => Iff.rfl⟩

theorem Marks.later_enter (m : Marks) (position : List Nat) : m.Later (m.enter position) where
  entered k seen := by
    rw [Marks.enter, Std.TreeSet.contains_insert, seen, Bool.or_true]
  running _ := Iff.rfl

/-- When a rule was marked differently for a while, what comes after is later. -/
theorem Marks.Later.restore {rule : Int} {on was : Bool} (later : (m.set rule on).Later t)
    (before : was = true ↔ rule ∈ m.running) : m.Later (t.set rule was) where
  entered := later.entered
  running r := by
    rw [mem_setRunning_undo before, Marks.set, mem_setRunning, mem_setRunning, later.running]
    rfl

theorem Marks.Later.unentered_le {depth top : Nat} (later : m.Later t) :
    unentered net depth top t.entered ≤ unentered net depth top m.entered := by
  refine List.countP_mono_left fun k _ new => ?_
  cases seen : m.entered.contains k with
  | false => rfl
  | true =>
      rw [later.entered k seen] at new
      cases new

/-- The procedure left such marks, or a return state was missing. -/
def Leaves (net : Network) (after : Marks → Prop) : Except LookaheadError Marks → Prop
  | .ok t => after t
  | .error e => ∃ r, e = .missingReturn r ∧ net.state? r = none

/-- From these marks the procedure comes to an end and leaves such marks, and its outcome does not
depend on what was found before. -/
def Settles (net : Network) (step : Marks → Visiting Marks) (m : Marks) (after : Marks → Prop) :
    Prop :=
  ∃ outcome, Leaves net after outcome ∧
    ∀ found, step (m.recordAll found) = done (outcome.map (·.recordAll found))

section Settles

variable {step next : Marks → Visiting Marks} {after after' : Marks → Prop}

theorem Settles.pure (change : Marks → Marks) (leaves : after (change m))
    (blind : ∀ found, change (m.recordAll found) = (change m).recordAll found) :
    Settles net (fun m => pure (change m)) m after :=
  ⟨.ok (change m), leaves, fun found => congrArg (fun t => done (.ok t)) (blind found)⟩

theorem Settles.throw {r : Int} (dead : net.state? r = none) :
    Settles net (fun _ => throw (.missingReturn r)) m after :=
  ⟨.error (.missingReturn r), ⟨r, rfl, dead⟩, fun _ => rfl⟩

theorem Settles.imp (settles : Settles net step m after) (weaker : ∀ t, after t → after' t) :
    Settles net step m after' := by
  obtain ⟨outcome, leaves, result⟩ := settles
  refine ⟨outcome, ?_, result⟩
  cases outcome with
  | error e => exact leaves
  | ok t => exact weaker t leaves

/-- A procedure settles when it goes on from other marks in a way that does. -/
theorem Settles.from (settles : Settles net next t after)
    (same : ∀ found, step (m.recordAll found) = next (t.recordAll found)) :
    Settles net step m after := by
  obtain ⟨outcome, leaves, result⟩ := settles
  exact ⟨outcome, leaves, fun found => (same found).trans (result found)⟩

theorem Settles.bind (first : Settles net step m after)
    (second : ∀ t, after t → Settles net next t after') :
    Settles net (fun m => step m >>= next) m after' := by
  obtain ⟨outcome, leaves, result⟩ := first
  cases outcome with
  | error e =>
      refine ⟨.error e, leaves, fun found => ?_⟩
      change step (m.recordAll found) >>= next = _
      rw [result]
      rfl
  | ok t =>
      obtain ⟨outcome, leaves, result'⟩ := second t leaves
      refine ⟨outcome, leaves, fun found => ?_⟩
      change step (m.recordAll found) >>= next = _
      rw [result]
      exact result' found

/-- Steps through a list settle when all of them do. -/
theorem Settles.foldlM {α : Type} {l : List α} {step : Marks → α → Visiting Marks}
    (start : after m) (each : ∀ a ∈ l, ∀ t, after t → Settles net (step · a) t after) :
    Settles net (l.foldlM step) m after := by
  induction l generalizing m with
  | nil => exact .pure (fun m => m) start fun _ => rfl
  | cons a l ih =>
      have rest : Settles net (fun m => step m a >>= fun t => l.foldlM step t) m after :=
        (each a List.mem_cons_self m start).bind fun t here =>
          ih here fun b mem => each b (List.mem_cons_of_mem a mem)
      exact rest.from fun _ => List.foldlM_cons

end Settles

section Visits

variable {rules : List Int} {top n : Nat} {stack : CallStack}

/-- Visits that fit come to an end when fewer positions than `bound` are not entered. -/
def SettlesBelow (ground : Ground) (rules : List Int) (top bound : Nat) : Prop :=
  ∀ (n : Nat) (stack : CallStack) (t : Marks),
    unentered ground.net rules.length top t.entered < bound →
    Fits ground.net rules top t.running stack → Settles ground.net (ground.visit n stack) t t.Later

/-- A way to leave a rule is taken to its end. -/
theorem resume_settles {bound : Nat} (below : SettlesBelow ground rules top bound)
    (few : unentered ground.net rules.length top m.entered < bound) {way : CallStack.Return}
    (fits : ∀ r rest, way = .resume r rest → Fits ground.net rules top m.running rest) :
    Settles ground.net (resume ground · way) m m.Later := by
  cases way with
  | ended =>
      exact .pure (·.record ground.options.boundary) (m.later_record _) (record_recordAll m _)
  | resume r rest =>
      by_cases live : (ground.net.state? r).isSome = true
      · exact (below r.toNat rest m few (fits r rest rfl)).from fun _ => if_pos live
      · have dead : ground.net.state? r = none := by simpa using live
        have failed : Settles ground.net (fun _ => throw (.missingReturn r)) m m.Later := .throw dead
        exact failed.from fun _ => if_neg live

/-- An edge is followed to its end. -/
theorem follow_settles {bound : Nat} (below : SettlesBelow ground rules top bound)
    (callable : ∀ f ∈ frames ground.net, f.rule ∈ rules)
    (few : unentered ground.net rules.length top m.entered < bound)
    (fits : Fits ground.net rules top m.running stack) {i : Nat} {edge : Transition}
    (there : edge? ground.net n i = some edge) :
    Settles ground.net (follow ground n stack · (edge, i)) m m.Later := by
  obtain ⟨target, label⟩ := edge
  have visited := below target stack m few fits
  have asked : Settles ground.net
      (fun m =>
        if ground.options.seeThroughPredicates then ground.visit target stack m
        else pure (m.record Symbol.invalid)) m m.Later := by
    by_cases see : ground.options.seeThroughPredicates = true
    · exact visited.from fun _ => if_pos see
    · have noted : Settles ground.net (fun m => pure (m.record Symbol.invalid)) m m.Later :=
        .pure _ (m.later_record _) (record_recordAll m _)
      exact noted.from fun _ => if_neg see
  have eaten : Settles ground.net
      (fun m => pure (m.recordAll (consumed ground.net.maxSymbol label))) m m.Later :=
    .pure _ (m.later_recordAll _) (recordAll_recordAll m _)
  cases label with
  | call returnTo rule level =>
      by_cases running : m.running.contains rule = true
      · have stay : Settles ground.net (fun m => pure m) m m.Later :=
          .pure (fun m => m) (.refl m) fun _ => rfl
        exact stay.from fun _ => if_pos running
      · have fresh : rule ∉ m.running := fun mem => running (List.contains_iff_mem.mpr mem)
        have call := mem_frames there
        have called := below target (stack.enter ⟨n, i, rule, returnTo⟩) (m.set rule true) few
          (fits.enter (callable _ call) call fresh)
        have cleared := called.bind fun t later =>
          Settles.pure (·.set rule false) (later.restore (by simp [fresh])) fun _ => rfl
        exact cleared.from fun _ => if_neg running
  | predicate rule index ctx => exact asked
  | precedence level => exact asked
  | epsilon => exact visited
  | action rule index ctx => exact visited
  | atom x => exact eaten
  | range lo hi => exact eaten
  | set symbols => exact eaten
  | notSet symbols => exact eaten
  | wildcard => exact eaten

/-- Every visit comes to an end, with the marks as they were but for the positions entered. -/
theorem visit_settles (nodup : rules.Nodup) (callable : ∀ f ∈ frames ground.net, f.rule ∈ rules)
    (fits : Fits ground.net rules top m.running stack) :
    Settles ground.net (ground.visit n stack) m m.Later := by
  induction size : unentered ground.net rules.length top m.entered using Nat.strongRecOn
    generalizing n stack m with
  | ind bound ih =>
      subst size
      have below : SettlesBelow ground rules top (unentered ground.net rules.length top m.entered) :=
        fun n stack t less fits => ih _ less fits rfl
      have stay : Settles ground.net (fun m => pure m) m m.Later :=
        .pure (fun m => m) (.refl m) fun _ => rfl
      cases hs : ground.net.get? n with
      | none => exact stay.from fun _ => visit_absent hs
      | some s =>
          by_cases seen : m.entered.contains (stack.key n) = true
          · exact stay.from fun _ => visit_known seen
          have entering := m.later_enter (stack.key n)
          have fewer := unentered_insert_lt hs fits seen
          by_cases atEnd : (ground.stop = some n ∨ s.kind = .ruleStop) ∧ stack.isEmpty = true
          · have recorded : Settles ground.net
                (fun t => pure (t.record ground.options.boundary)) (m.enter (stack.key n))
                m.Later :=
              .pure _ (entering.trans (Marks.later_record _ _)) (record_recordAll _ _)
            exact recorded.from fun found => visit_finished (m := m.recordAll found) hs seen atEnd
          by_cases kind : s.kind = .ruleStop
          · have inner : ¬ stack.isEmpty = true := fun empty => atEnd ⟨.inr kind, empty⟩
            have returned : Settles ground.net
                ((stack.returns ground.graph).foldlM (resume ground))
                ((m.enter (stack.key n)).set s.rule false)
                ((m.enter (stack.key n)).set s.rule false).Later := by
              refine .foldlM (.refl _) fun way mem t later => ?_
              refine (resume_settles below (Nat.lt_of_le_of_lt later.unentered_le fewer) ?_).imp
                fun u => later.trans
              rintro r rest rfl
              exact (fits_of_mem_returns nodup fits mem).congr fun r => (later.running r).symm
            have restored := returned.bind fun t later =>
              Settles.pure (·.set s.rule (m.running.contains s.rule))
                (entering.trans (later.restore List.contains_iff_mem)) fun _ => rfl
            exact restored.from fun found =>
              visit_left (m := m.recordAll found) hs seen inner kind
          · have followed : Settles ground.net
                (s.transitions.zipIdx.foldlM (follow ground n stack)) (m.enter (stack.key n))
                (m.enter (stack.key n)).Later := by
              refine .foldlM (.refl _) fun edge mem t later => ?_
              refine (follow_settles below callable
                (Nat.lt_of_le_of_lt later.unentered_le fewer) ?_ ?_).imp fun u => later.trans
              · exact fits.congr fun r => (later.running r).symm
              · rw [edge?, hs]
                exact List.mem_zipIdx_iff_getElem?.mp mem
            exact (followed.imp fun t => entering.trans).from fun found =>
              visit_opened (m := m.recordAll found) hs seen atEnd kind

/-! ### The work of a walk, done by recursion -/

/-- Does a piece of work by recursion. -/
def perform (ground : Ground) (m : Marks) : Task → Visiting Marks
  | .visit n stack => ground.visit n stack m
  | .follow n i edge stack => follow ground n stack m (edge, i)
  | .restore rule on => pure (m.set rule on)

/-- What a walk has marked. -/
def Walk.marks (w : Walk) : Marks :=
  ⟨w.entered, w.running, w.found⟩

/-- What is left of a walk, done by recursion. -/
def remaining (ground : Ground) (w : Walk) : Visiting Marks :=
  w.tasks.foldlM (perform ground) w.marks

theorem remaining_of_front {w : Walk} {task : Task} {tasks : List Task}
    (front : w.tasks = task :: tasks) :
    remaining ground w = perform ground w.marks task >>= fun m => tasks.foldlM (perform ground) m := by
  rw [remaining, front, List.foldlM_cons]

/-- What is recorded for the ways that end the stack. -/
def endsOf (ground : Ground) (ways : List CallStack.Return) : SymbolSet :=
  if ways.contains .ended then (∅ : SymbolSet).addSymbol ground.options.boundary else ∅

theorem recordAll_single (m : Marks) (x : Int) :
    m.recordAll ((∅ : SymbolSet).addSymbol x) = m.record x := by
  have same : m.found ∪ (∅ : SymbolSet).addSymbol x = m.found.addSymbol x := by
    ext y
    simp [SymbolSet.mem_union, SymbolSet.mem_addSymbol, SymbolSet.not_mem_empty, or_comm]
  simp only [Marks.recordAll, Marks.record, same]

theorem record_recordAll_endsOf (m : Marks) (ways : List CallStack.Return) :
    (m.record ground.options.boundary).recordAll (endsOf ground ways) =
      m.record ground.options.boundary := by
  unfold endsOf
  split
  · have same : (m.found.addSymbol ground.options.boundary).addSymbol ground.options.boundary =
        m.found.addSymbol ground.options.boundary := by
      ext y
      simp [SymbolSet.mem_addSymbol]
    simp only [recordAll_single, Marks.record, same]
  · exact recordAll_empty _

/-- The end of a stack may be recorded before all visits that come first, as none of them depends on
what was found. -/
theorem returnTasks_foldlM {ways : List CallStack.Return}
    (live : ∀ r rest, .resume r rest ∈ ways → (ground.net.state? r).isSome = true)
    (settles : ∀ r rest, .resume r rest ∈ ways → ∀ t, m.Later t →
      Settles ground.net (ground.visit r.toNat rest) t t.Later) :
    (returnTasks ways).foldlM (perform ground) (m.recordAll (endsOf ground ways)) =
      ways.foldlM (resume ground) m := by
  induction ways generalizing m with
  | nil => exact congrArg pure (recordAll_empty m)
  | cons way ways ih =>
      have live' := fun r rest mem => live r rest (List.mem_cons_of_mem way mem)
      have settles' := fun r rest mem => settles r rest (List.mem_cons_of_mem way mem)
      cases way with
      | ended =>
          have first : m.recordAll (endsOf ground (.ended :: ways)) =
              (m.record ground.options.boundary).recordAll (endsOf ground ways) := by
            rw [record_recordAll_endsOf, endsOf, if_pos (by simp), recordAll_single]
          rw [first]
          exact ih live' fun r rest mem t later =>
            settles' r rest mem t ((m.later_record _).trans later)
      | resume r rest =>
          have same : endsOf ground (.resume r rest :: ways) = endsOf ground ways := by
            simp [endsOf]
          obtain ⟨outcome, leaves, result⟩ := settles r rest List.mem_cons_self m (.refl m)
          have plain := result ∅
          rw [recordAll_empty] at plain
          change ground.visit r.toNat rest _ >>= _ = resume ground m (.resume r rest) >>= _
          rw [resume, if_pos (live r rest List.mem_cons_self), same, result, plain]
          cases outcome with
          | error e => rfl
          | ok t =>
              have later : m.Later t := leaves
              exact ih live' fun r rest mem u later' =>
                settles' r rest mem u (later.trans later')

theorem follow_of_passes {i : Nat} {edge : Transition}
    (pass : ground.options.passes edge.label = true) :
    follow ground n stack m (edge, i) = ground.visit edge.target stack m := by
  obtain ⟨target, label⟩ := edge
  have see : label.isPredicate = true → ground.options.seeThroughPredicates = true := by
    intro asks
    rw [LookaheadOptions.passes, Bool.and_eq_true, Bool.or_eq_true, asks] at pass
    exact pass.2.resolve_left (by decide)
  cases label with
  | epsilon | action => rfl
  | predicate rule index ctx => exact if_pos (see rfl)
  | precedence level => exact if_pos (see rfl)
  | call | atom | range | set | notSet | wildcard => cases pass

theorem follow_of_predicate {i : Nat} {edge : Transition} (asks : edge.label.isPredicate = true)
    (blind : ground.options.seeThroughPredicates = false) :
    follow ground n stack m (edge, i) = pure (m.record Symbol.invalid) := by
  have closed : ¬ ground.options.seeThroughPredicates = true := by simp [blind]
  obtain ⟨target, label⟩ := edge
  cases label with
  | predicate rule index ctx => exact if_neg closed
  | precedence level => exact if_neg closed
  | epsilon | action | call | atom | range | set | notSet | wildcard => cases asks

theorem follow_of_consuming {i : Nat} {edge : Transition} (eats : edge.label.isEpsilon = false) :
    follow ground n stack m (edge, i) =
      pure (m.recordAll (consumed ground.net.maxSymbol edge.label)) := by
  obtain ⟨target, label⟩ := edge
  cases label with
  | atom | range | set | notSet | wildcard => rfl
  | epsilon | action | call | predicate | precedence => cases eats

theorem foldlM_edgeTasks (edges : List Transition) (tasks : List Task) :
    (edgeTasks n stack edges ++ tasks).foldlM (perform ground) m =
      edges.zipIdx.foldlM (follow ground n stack) m >>= fun m => tasks.foldlM (perform ground) m := by
  rw [List.foldlM_append, edgeTasks, List.foldlM_map]
  rfl

/-- A call is done by the visit of the rule and what comes after it. -/
theorem follow_of_call {i returnTo target : Nat} {rule level : Int} {tasks : List Task}
    (fresh : rule ∉ m.running) :
    follow ground n stack m (⟨target, .call returnTo rule level⟩, i) >>=
        (fun m => tasks.foldlM (perform ground) m) =
      (.visit target (stack.enter ⟨n, i, rule, returnTo⟩) :: .restore rule false :: tasks).foldlM
        (perform ground) (m.set rule true) := by
  have idle : ¬ m.running.contains rule = true := fun running =>
    fresh (List.contains_iff_mem.mp running)
  rw [follow]
  simp only [if_neg idle, bind_assoc]
  rw [List.foldlM_cons]
  refine congrArg (_ >>= ·) (funext fun called => ?_)
  rw [List.foldlM_cons]
  rfl

/-- The end of a rule is done by the visits of all return states and what comes after them. -/
theorem visit_of_left (nodup : rules.Nodup) (callable : ∀ f ∈ frames ground.net, f.rule ∈ rules)
    (fits : Fits ground.net rules top m.running stack) {s : State} {tasks : List Task}
    (hs : ground.net.get? n = some s) (kind : s.kind = .ruleStop)
    (inner : ¬ stack.isEmpty = true) (fresh : ¬ m.entered.contains (stack.key n) = true)
    (live : missingReturn? ground.net (stack.returns ground.graph) = none) :
    ground.visit n stack m >>= (fun m => tasks.foldlM (perform ground) m) =
      (returnTasks (stack.returns ground.graph) ++
          .restore s.rule (m.running.contains s.rule) :: tasks).foldlM (perform ground)
        (((m.enter (stack.key n)).set s.rule false).recordAll
          (endsOf ground (stack.returns ground.graph))) := by
  have ways := returnTasks_foldlM (m := (m.enter (stack.key n)).set s.rule false)
    (fun r rest mem => state?_isSome_of_missingReturn? live mem) fun r rest mem t later =>
      visit_settles nodup callable
        ((fits_of_mem_returns nodup fits mem).congr fun r => (later.running r).symm)
  rw [visit_left hs fresh inner kind, ← ways, List.foldlM_append, bind_assoc]
  refine congrArg (_ >>= ·) (funext fun left => ?_)
  rw [List.foldlM_cons]
  rfl

/-- A walk that leaves a rule records the end of the stack at once. -/
theorem recordAll_endsOf (m : Marks) (ways : List CallStack.Return) :
    m.recordAll (endsOf ground ways) =
      { m with
        found :=
          if ways.contains .ended then m.found.addSymbol ground.options.boundary else m.found } := by
  unfold endsOf
  split
  · exact recordAll_single m _
  · exact recordAll_empty m

/-- No round changes what the work comes to. -/
theorem Took.remaining_eq {w w' : Walk} (took : Took ground w w') (nodup : rules.Nodup)
    (callable : ∀ f ∈ frames ground.net, f.rule ∈ rules)
    (balanced : Balanced ground.net rules top w.running w.tasks) :
    remaining ground w' = remaining ground w := by
  cases took with
  | restored front =>
      rw [remaining_of_front front]
      rfl
  | @passed n i edge stack tasks front pass =>
      rw [remaining_of_front front, perform, follow_of_passes pass]
      exact List.foldlM_cons
  | @called n i returnTo edge rule precedence stack tasks front label fresh =>
      obtain ⟨target, label'⟩ := edge
      subst label
      rw [remaining_of_front front, perform, follow_of_call (m := w.marks) fresh]
      rfl
  | @barred n i returnTo edge rule precedence stack tasks front label running =>
      obtain ⟨target, label'⟩ := edge
      subst label
      have here : w.marks.running.contains rule = true := List.contains_iff_mem.mpr running
      rw [remaining_of_front front, perform, follow]
      simp only [here, if_true]
      rfl
  | noted front asks blind =>
      rw [remaining_of_front front, perform, follow_of_predicate asks blind]
      rfl
  | consumed front eats =>
      rw [remaining_of_front front, perform, follow_of_consuming eats]
      rfl
  | absent front dead =>
      rw [remaining_of_front front, perform, visit_absent dead]
      rfl
  | known front seen =>
      rw [remaining_of_front front, perform, visit_known seen]
      rfl
  | finished front hs atEnd fresh =>
      rw [remaining_of_front front, perform, visit_finished hs fresh]
      · rfl
      · rcases atEnd with halts | ⟨kind, empty⟩
        · exact ⟨.inl halts.1, halts.2⟩
        · exact ⟨.inr kind, empty⟩
  | @left n s stack tasks front hs kind going inner fresh live =>
      rw [front] at balanced
      rw [remaining_of_front front, perform,
        visit_of_left (m := w.marks) nodup callable balanced.1 hs kind inner fresh live,
        recordAll_endsOf]
      rfl
  | @opened n s stack tasks front hs kind going fresh =>
      rw [remaining_of_front front, perform, visit_opened hs fresh ?_ kind]
      · exact foldlM_edgeTasks s.transitions tasks
      · rintro ⟨stop | stop, empty⟩
        · exact going ⟨stop, empty⟩
        · exact kind stop

/-! ### Missing return states -/

theorem bind_eq_done_ok {α β : Type} {first : Visiting α} {next : α → Visiting β} {b : β}
    (result : first >>= next = done (.ok b)) : ∃ a, first = done (.ok a) ∧ next a = done (.ok b) := by
  cases first with
  | none => cases result
  | some outcome =>
      cases outcome with
      | error e => cases result
      | ok a => exact ⟨a, rfl, result⟩

/-- The ways to leave a rule are not all taken when a return state is missing. -/
theorem foldlM_resume_ne_ok {ways : List CallStack.Return} {r : Int} {rest : CallStack}
    (mem : .resume r rest ∈ ways) (dead : ground.net.state? r = none) :
    ways.foldlM (resume ground) m ≠ done (.ok t) := by
  intro result
  induction ways generalizing m with
  | nil => cases mem
  | cons way ways ih =>
      rw [List.foldlM_cons] at result
      obtain ⟨u, first, result⟩ := bind_eq_done_ok result
      rcases List.mem_cons.mp mem with rfl | mem
      · have missing : ¬ (ground.net.state? r).isSome = true := by simp [dead]
        rw [resume, if_neg missing] at first
        cases first
      · exact ih mem result

/-- The visit of the end of a rule fails when a return state is missing. -/
theorem visit_missing (nodup : rules.Nodup) (callable : ∀ f ∈ frames ground.net, f.rule ∈ rules)
    (fits : Fits ground.net rules top m.running stack) {s : State} {r : Int} {rest : CallStack}
    (hs : ground.net.get? n = some s) (kind : s.kind = .ruleStop)
    (fresh : ¬ m.entered.contains (stack.key n) = true)
    (mem : .resume r rest ∈ stack.returns ground.graph) (dead : ground.net.state? r = none) :
    ∃ k, ground.net.state? k = none ∧ ground.visit n stack m = done (.error (.missingReturn k)) := by
  have inner : ¬ stack.isEmpty = true := by
    intro empty
    rw [CallStack.isEmpty_iff.mp empty, CallStack.returns_root] at mem
    cases List.mem_singleton.mp mem
  obtain ⟨outcome, leaves, result⟩ :=
    visit_settles (n := n) nodup callable fits
  have plain := result ∅
  rw [recordAll_empty] at plain
  cases outcome with
  | error e =>
      obtain ⟨k, rfl, dead⟩ := leaves
      exact ⟨k, dead, plain⟩
  | ok t =>
      rw [visit_left hs fresh inner kind] at plain
      obtain ⟨u, first, -⟩ := bind_eq_done_ok plain
      exact absurd first (foldlM_resume_ne_ok mem dead)

/-- The walk and the recursion end in the same way: both with the same symbols, or both because a
return state is missing. -/
def SameAnswer (net : Network) (recursion : Visiting SymbolSet)
    (walk : Except LookaheadError SymbolSet) : Prop :=
  (∃ found, recursion = done (.ok found) ∧ walk = .ok found) ∨
    ∃ k k', net.state? k = none ∧ net.state? k' = none ∧
      recursion = done (.error (.missingReturn k)) ∧ walk = .error (.missingReturn k')

/-- The last round gives what the work left comes to. -/
theorem remaining_of_done {w : Walk} {answer : Except LookaheadError SymbolSet}
    (nodup : rules.Nodup) (callable : ∀ f ∈ frames ground.net, f.rule ∈ rules)
    (balanced : Balanced ground.net rules top w.running w.tasks)
    (round : Walk.round ground w = .done answer) :
    SameAnswer ground.net (Marks.found <$> remaining ground w) answer := by
  rcases round_done round with
    ⟨idle, rfl⟩ | ⟨n, s, stack, tasks, r, rest, front, hs, kind, fresh, mem, dead, rfl⟩
  · refine .inl ⟨w.found, ?_, rfl⟩
    rw [remaining, idle]
    rfl
  · rw [front] at balanced
    obtain ⟨k, dead', failed⟩ :=
      visit_missing (m := w.marks) nodup callable balanced.1 hs kind fresh mem dead
    refine .inr ⟨k, r, dead', dead, ?_, rfl⟩
    rw [remaining_of_front front, perform, failed]
    rfl

end Visits

theorem walk_eq_visit (ground : Ground) (n base : Nat) :
    SameAnswer ground.net (Marks.found <$> ground.visit n { base } {}) (walk ground n base) := by
  let rules := calledRules ground.net
  have nodup : rules.Nodup := nodup_calledRules ground.net
  have callable : ∀ f ∈ frames ground.net, f.rule ∈ rules := fun _ => rule_mem_calledRules
  have fits : Fits ground.net rules base [] ⟨[], base⟩ :=
    ⟨Nat.zero_le _, by simp, Nat.le_refl _⟩
  have start : remaining ground (.start n base) = ground.visit n { base } {} := by
    rw [remaining, Walk.start, List.foldlM_cons]
    exact bind_pure _
  rw [← start]
  have keeps : ∀ w w', Balanced ground.net rules base w.running w.tasks ∧
        remaining ground w = remaining ground (.start n base) →
      Walk.round ground w = .next w' → Balanced ground.net rules base w'.running w'.tasks ∧
        remaining ground w' = remaining ground (.start n base) :=
    fun w w' inv round => ⟨(inv.1.next nodup callable round).1,
      ((took_of_round round).remaining_eq nodup callable inv.1).trans inv.2⟩
  have last : ∀ w answer, Balanced ground.net rules base w.running w.tasks ∧
        remaining ground w = remaining ground (.start n base) →
      Walk.round ground w = .done answer →
        SameAnswer ground.net (Marks.found <$> remaining ground (.start n base)) answer :=
    fun w answer inv round => inv.2 ▸ remaining_of_done nodup callable inv.1 round
  exact Loop.run_invariant keeps last (ends ground n base) ⟨⟨fits, trivial⟩, rfl⟩

/-- A lookahead by the walk has the symbols that the recursion finds, and fails where the recursion
fails: a stack returns to a state that is not there. The recursion always comes to an end. -/
theorem look_eq_recursive (net : Network) (graph : StackGraph) (state stack : Option Nat)
    (options : LookaheadOptions) (stop : Option Nat) :
    SameAnswer net (net.lookRecursively graph state stack options stop)
      (net.look graph state stack options stop) := by
  cases state with
  | none => exact .inl ⟨∅, rfl, rfl⟩
  | some n => exact walk_eq_visit { net, graph, stop, options } n (graph.resolveRef stack)

end Lookahead

end GrammarNet
