import GrammarNet.Lookahead.Walk

/-!
The lookahead walk ends, whatever the network, the stack graph and the options.

A walk can only be in finitely many positions. The calls on its stack are calls of the network, and
there are never more of them than rules that can be called: each call marks its rule as being run,
which must not be the case before, and leaving a rule takes a call from the stack and at most one
mark. `Balanced` says this for all pending work, with the marks as they will be when the work is
done. The number of positions not yet entered and the weight of the pending work then go down.
-/

namespace GrammarNet

namespace Lookahead

/-! ### The positions of a walk -/

/-- The edge of a state at a place. -/
def edge? (net : Network) (source index : Nat) : Option Transition :=
  (net.get? source).bind fun s => s.transitions[index]?

/-- All calls of a network. -/
def frames (net : Network) : List Frame :=
  (List.range net.states.size).flatMap fun n =>
    match net.get? n with
    | none => []
    | some s =>
        s.transitions.zipIdx.filterMap fun (t, i) =>
          match t.label with
          | .call follow rule _ => some ⟨n, i, rule, follow⟩
          | _ => none

theorem lt_size_of_get? {net : Network} {n : Nat} {s : State} (h : net.get? n = some s) :
    n < net.states.size := by
  unfold Network.get? at h
  by_cases hn : n < net.states.size
  · exact hn
  · rw [Array.getElem?_eq_none (by omega)] at h
    cases h

theorem mem_frames {net : Network} {n i target follow : Nat} {rule level : Int}
    (h : edge? net n i = some ⟨target, .call follow rule level⟩) :
    (⟨n, i, rule, follow⟩ : Frame) ∈ frames net := by
  unfold edge? at h
  obtain ⟨s, hs, ht⟩ := Option.bind_eq_some_iff.1 h
  refine List.mem_flatMap.2 ⟨n, List.mem_range.2 (lt_size_of_get? hs), ?_⟩
  simp only [hs]
  exact List.mem_filterMap.2 ⟨(_, i), List.mem_zipIdx_iff_getElem?.2 ht, rfl⟩

/-- All lists over `l` with at most `n` elements. -/
def listsUpTo {α : Type} (l : List α) : Nat → List (List α)
  | 0 => [[]]
  | n + 1 => [] :: l.flatMap fun a => (listsUpTo l n).map (a :: ·)

theorem mem_listsUpTo {α : Type} {l : List α} {n : Nat} {m : List α} (hlen : m.length ≤ n)
    (hmem : ∀ a ∈ m, a ∈ l) : m ∈ listsUpTo l n := by
  induction n generalizing m with
  | zero =>
      cases m with
      | nil => exact List.mem_singleton.2 rfl
      | cons a m => simp at hlen
  | succ n ih =>
      cases m with
      | nil => exact List.mem_cons_self
      | cons a m =>
          refine List.mem_cons_of_mem _ (List.mem_flatMap.2 ⟨a, hmem a List.mem_cons_self, ?_⟩)
          refine List.mem_map.2 ⟨m, ih ?_ (fun b hb => hmem b (List.mem_cons_of_mem a hb)), rfl⟩
          simp only [List.length_cons] at hlen
          omega

/-- The keys of all positions with at most `depth` calls above nodes up to `top`. -/
def positions (net : Network) (depth top : Nat) : List (List Nat) :=
  (List.range net.states.size).flatMap fun n =>
    (List.range (top + 1)).flatMap fun base =>
      (listsUpTo (frames net) depth).map fun calls => CallStack.key n ⟨calls, base⟩

theorem key_mem_positions {net : Network} {depth top n : Nat} {stack : CallStack}
    (hn : n < net.states.size) (hb : stack.base ≤ top) (hl : stack.calls.length ≤ depth)
    (hf : ∀ f ∈ stack.calls, f ∈ frames net) : stack.key n ∈ positions net depth top :=
  List.mem_flatMap.2 ⟨n, List.mem_range.2 hn,
    List.mem_flatMap.2 ⟨stack.base, List.mem_range.2 (by omega),
      List.mem_map.2 ⟨stack.calls, mem_listsUpTo hl hf, rfl⟩⟩⟩

/-! ### Counting the rules that are being run -/

/-- The rules that the calls of a network enter, each of them once. -/
def calledRules (net : Network) : List Int :=
  (Std.TreeSet.ofList ((frames net).map (·.rule))).toList

theorem nodup_calledRules (net : Network) : (calledRules net).Nodup :=
  Std.TreeSet.distinct_toList.imp fun differ same => differ (by simp [same])

theorem rule_mem_calledRules {net : Network} {f : Frame} (mem : f ∈ frames net) :
    f.rule ∈ calledRules net := by
  rw [calledRules, Std.TreeSet.mem_toList, Std.TreeSet.mem_ofList, List.contains_iff_mem]
  exact List.mem_map_of_mem mem

/-- The number of rules of `rules` that are being run. -/
def runningCount (rules running : List Int) : Nat :=
  rules.countP fun r => running.contains r

theorem mem_setRunning {running : List Int} {rule r : Int} {on : Bool} :
    r ∈ setRunning running rule on ↔ if r = rule then on = true else r ∈ running := by
  unfold setRunning
  cases on with
  | false => by_cases h : r = rule <;> simp [h]
  | true =>
      by_cases h : r = rule
      · subst h
        by_cases hc : r ∈ running <;> simp [hc]
      · by_cases hc : rule ∈ running <;> simp [h, hc]

/-- Marking a rule and undoing it leaves the rules being run as they were. -/
theorem mem_setRunning_undo {running : List Int} {rule r : Int} {on was : Bool}
    (before : was = true ↔ rule ∈ running) :
    r ∈ running ↔ r ∈ setRunning (setRunning running rule on) rule was := by
  rw [mem_setRunning, mem_setRunning]
  by_cases h : r = rule
  · subst h
    simp [before]
  · simp [h]

theorem runningCount_congr {rules xs ys : List Int} (h : ∀ r, r ∈ xs ↔ r ∈ ys) :
    runningCount rules xs = runningCount rules ys :=
  List.countP_congr fun r _ => by simp [h r]

theorem runningCount_le (rules running : List Int) : runningCount rules running ≤ rules.length :=
  List.countP_le_length

theorem runningCount_lt {rules running : List Int} {rule : Int} (mem : rule ∈ rules)
    (fresh : ¬ rule ∈ running) :
    runningCount rules running < runningCount rules (setRunning running rule true) := by
  refine Loop.countP_lt (a := rule) (fun r _ h => ?_) mem ?_ ?_
  · rw [List.contains_iff_mem] at h ⊢
    rw [mem_setRunning]
    split
    · rfl
    · exact h
  · rw [List.contains_iff_mem, mem_setRunning]
    simp
  · simpa using fresh

theorem runningCount_le_succ {rules running : List Int} {rule : Int} (nodup : rules.Nodup) :
    runningCount rules running ≤ runningCount rules (setRunning running rule false) + 1 := by
  unfold runningCount
  induction rules with
  | nil => simp
  | cons r rules ih =>
      obtain ⟨hr, hn⟩ := List.nodup_cons.1 nodup
      rw [List.countP_cons, List.countP_cons]
      by_cases heq : r = rule
      · subst heq
        have same : rules.countP (fun s => running.contains s) =
            rules.countP fun s => (setRunning running r false).contains s :=
          List.countP_congr fun s hs => by
            have : s ≠ r := fun h => hr (h ▸ hs)
            simp [mem_setRunning, this]
        rw [same]
        split <;> split <;> omega
      · have same : running.contains r = (setRunning running rule false).contains r := by
          rw [Bool.eq_iff_iff]
          simp [mem_setRunning, heq]
        rw [same]
        have := ih hn
        split <;> omega

/-! ### Balanced work -/

/-- A stack over calls of the network and nodes up to `top`, with no more calls than rules are
being run. -/
structure Fits (net : Network) (rules : List Int) (top : Nat) (running : List Int)
    (stack : CallStack) : Prop where
  length_le : stack.calls.length ≤ runningCount rules running
  mem_frames : ∀ f ∈ stack.calls, f ∈ frames net
  base_le : stack.base ≤ top

theorem Fits.congr {net : Network} {rules : List Int} {top : Nat} {xs ys : List Int}
    {stack : CallStack} (h : ∀ r, r ∈ xs ↔ r ∈ ys) (fits : Fits net rules top xs stack) :
    Fits net rules top ys stack :=
  { fits with length_le := runningCount_congr h ▸ fits.length_le }

/-- After a call of a rule that is not being run, the stack fits with the rule being run. -/
theorem Fits.enter {net : Network} {rules : List Int} {top : Nat} {running : List Int}
    {stack : CallStack} {frame : Frame} (fits : Fits net rules top running stack)
    (callable : frame.rule ∈ rules) (call : frame ∈ frames net) (fresh : frame.rule ∉ running) :
    Fits net rules top (setRunning running frame.rule true) (stack.enter frame) where
  length_le := by
    have more := runningCount_lt callable fresh
    have before := fits.length_le
    simp only [CallStack.enter, List.length_cons]
    omega
  mem_frames f mem := by
    rcases List.mem_cons.1 mem with rfl | mem
    · exact call
    · exact fits.mem_frames f mem
  base_le := fits.base_le

/-- All stacks of pending work fit, with the rules being run as they will be when the work before
is done. -/
def Balanced (net : Network) (rules : List Int) (top : Nat) : List Int → List Task → Prop
  | _, [] => True
  | running, .visit _ stack :: tasks =>
      Fits net rules top running stack ∧ Balanced net rules top running tasks
  | running, .follow source index edge stack :: tasks =>
      (edge? net source index = some edge ∧ Fits net rules top running stack) ∧
        Balanced net rules top running tasks
  | running, .restore rule on :: tasks =>
      Balanced net rules top (setRunning running rule on) tasks

section Balanced

variable {net : Network} {rules : List Int} {top : Nat}

theorem Balanced.congr {xs ys : List Int} {tasks : List Task} (h : ∀ r, r ∈ xs ↔ r ∈ ys)
    (balanced : Balanced net rules top xs tasks) : Balanced net rules top ys tasks := by
  induction tasks generalizing xs ys with
  | nil => trivial
  | cons task tasks ih =>
      cases task with
      | visit n stack => exact ⟨balanced.1.congr h, ih h balanced.2⟩
      | follow source index edge stack =>
          exact ⟨⟨balanced.1.1, balanced.1.2.congr h⟩, ih h balanced.2⟩
      | restore rule on =>
          refine ih (fun r => ?_) balanced
          rw [mem_setRunning, mem_setRunning]
          split
          · exact Iff.rfl
          · exact h r

/-- The edges of a state are balanced work when its stack fits. -/
theorem balanced_edgeTasks {running : List Int} {n : Nat} {s : State} {stack : CallStack}
    {tasks : List Task} (hs : net.get? n = some s) (fits : Fits net rules top running stack)
    (rest : Balanced net rules top running tasks) :
    Balanced net rules top running (edgeTasks n stack s.transitions ++ tasks) := by
  have all : ∀ p ∈ s.transitions.zipIdx, edge? net n p.2 = some p.1 := fun p hp => by
    rw [edge?, hs]
    exact List.mem_zipIdx_iff_getElem?.1 hp
  unfold edgeTasks
  generalize s.transitions.zipIdx = l at all
  induction l with
  | nil => exact rest
  | cons p l ih =>
      exact ⟨⟨all p List.mem_cons_self, fits⟩, ih fun q hq => all q (List.mem_cons_of_mem p hq)⟩

/-- The ways to leave a rule are balanced work once the rule is not being run. -/
theorem balanced_returnTasks {running : List Int} {returns : List CallStack.Return}
    {tasks : List Task}
    (fits : ∀ n stack, .resume n stack ∈ returns → Fits net rules top running stack)
    (rest : Balanced net rules top running tasks) :
    Balanced net rules top running (returnTasks returns ++ tasks) := by
  induction returns with
  | nil => exact rest
  | cons r returns ih =>
      have tail := ih fun n stack h => fits n stack (List.mem_cons_of_mem r h)
      cases r with
      | ended => exact tail
      | resume n stack => exact ⟨fits n stack List.mem_cons_self, tail⟩

/-- What is left of a stack fits once the rule that was left is not being run. -/
theorem fits_of_mem_returns {running : List Int} {g : StackGraph} {stack left : CallStack}
    {rule n : Int} (nodup : rules.Nodup) (fits : Fits net rules top running stack)
    (mem : .resume n left ∈ stack.returns g) :
    Fits net rules top (setRunning running rule false) left := by
  obtain ⟨calls, base⟩ := stack
  unfold CallStack.returns at mem
  split at mem
  · next frame calls' hc =>
      simp only at hc
      subst hc
      rw [List.mem_singleton] at mem
      cases mem
      have := fits.length_le
      have : runningCount rules running ≤
          runningCount rules (setRunning running rule false) + 1 := runningCount_le_succ nodup
      simp only [List.length_cons] at *
      exact ⟨by simp only; omega,
        fun f hf => fits.mem_frames f (List.mem_cons_of_mem _ hf), fits.base_le⟩
  · obtain ⟨e, he, hr⟩ := List.mem_map.1 mem
    cases e with
    | ended => cases hr
    | call r c =>
        cases hr
        have := StackGraph.caller_lt he rfl
        have := fits.base_le
        exact ⟨Nat.zero_le _, by simp, by simp only at *; omega⟩

end Balanced

/-! ### The walk ends -/

/-- The weight of a piece of work: following an edge weighs more than what it plans. -/
def Task.weight : Task → Nat
  | .visit .. => 1
  | .follow .. => 3
  | .restore .. => 1

/-- The weight of pending work. -/
def weight : List Task → Nat
  | [] => 0
  | task :: tasks => task.weight + weight tasks

@[simp] theorem weight_cons (task : Task) (tasks : List Task) :
    weight (task :: tasks) = task.weight + weight tasks :=
  rfl

/-- The number of positions with at most `depth` calls that were not entered. -/
def unentered (net : Network) (depth top : Nat) (entered : Std.TreeSet (List Nat)) : Nat :=
  (positions net depth top).countP fun k => !entered.contains k

/-- Entering a position leaves fewer of them. -/
theorem unentered_insert_lt {net : Network} {rules running : List Int} {top n : Nat} {s : State}
    {stack : CallStack} {entered : Std.TreeSet (List Nat)} (hs : net.get? n = some s)
    (fits : Fits net rules top running stack) (fresh : ¬ entered.contains (stack.key n) = true) :
    unentered net rules.length top (entered.insert (stack.key n)) <
      unentered net rules.length top entered := by
  have mem := key_mem_positions (lt_size_of_get? hs) fits.base_le
    (Nat.le_trans fits.length_le (runningCount_le _ _)) fits.mem_frames
  refine Loop.countP_not_lt mem fresh Std.TreeSet.contains_insert_self fun k seen => ?_
  rw [Std.TreeSet.contains_insert, seen, Bool.or_true]

section Rounds

variable {ground : Ground} {rules : List Int} {top : Nat} {w t : Walk}

/-- What comes of an edge is balanced, and weighs less than following the edge. -/
theorem balanced_followEdge (callable : ∀ f ∈ frames ground.net, f.rule ∈ rules)
    {source index : Nat} {edge : Transition} {stack : CallStack}
    (here : edge? ground.net source index = some edge)
    (fits : Fits ground.net rules top w.running stack)
    (rest : Balanced ground.net rules top w.running w.tasks) :
    let t := w.followEdge ground source index edge stack
    Balanced ground.net rules top t.running t.tasks ∧ t.entered = w.entered ∧
      weight t.tasks < 3 + weight w.tasks := by
  intro t
  have onward : Balanced ground.net rules top w.running (.visit edge.target stack :: w.tasks) :=
    ⟨fits, rest⟩
  have lighter : weight w.tasks < 3 + weight w.tasks := by omega
  have planned : weight (.visit edge.target stack :: w.tasks) < 3 + weight w.tasks := by
    simp [Task.weight]
  subst t
  unfold Walk.followEdge
  split
  · next returnTo rule level label =>
      rw [show edge = ⟨edge.target, .call returnTo rule level⟩ by rw [← label]] at here
      have call := mem_frames here
      split
      · exact ⟨rest, rfl, lighter⟩
      · next idle =>
          have fresh : rule ∉ w.running := by simpa using idle
          have back : Balanced ground.net rules top
              (setRunning (setRunning w.running rule true) rule false) w.tasks :=
            rest.congr fun _ => mem_setRunning_undo (by simp [fresh])
          refine ⟨⟨fits.enter (callable _ call) call fresh, back⟩, rfl, ?_⟩
          simp only [Walk.plan, List.cons_append, List.nil_append, weight_cons, Task.weight]
          omega
  · split
    · exact ⟨onward, rfl, planned⟩
    · exact ⟨rest, rfl, lighter⟩
  · split
    · exact ⟨onward, rfl, planned⟩
    · exact ⟨rest, rfl, lighter⟩
  · exact ⟨onward, rfl, planned⟩
  · exact ⟨onward, rfl, planned⟩
  all_goals exact ⟨rest, rfl, lighter⟩

/-- What comes of leaving a rule is balanced. -/
theorem balanced_of_leave (nodup : rules.Nodup) {rule : Int} {stack : CallStack}
    (fits : Fits ground.net rules top w.running stack)
    (rest : Balanced ground.net rules top w.running w.tasks)
    (left : w.leave ground rule stack = .ok t) :
    Balanced ground.net rules top t.running t.tasks ∧ t.entered = w.entered := by
  have back : Balanced ground.net rules top
      (setRunning (setRunning w.running rule false) rule (w.running.contains rule)) w.tasks :=
    rest.congr fun _ => mem_setRunning_undo List.contains_iff_mem
  have planned : Balanced ground.net rules top (setRunning w.running rule false)
      (returnTasks (stack.returns ground.graph) ++
        .restore rule (w.running.contains rule) :: w.tasks) :=
    balanced_returnTasks (fun _ _ => fits_of_mem_returns nodup fits) back
  unfold Walk.leave at left
  simp only at left
  split at left
  · cases left
  · cases left
    split
    · exact ⟨by simpa [Walk.plan, Walk.record] using planned, rfl⟩
    · exact ⟨by simpa [Walk.plan] using planned, rfl⟩

/-- What comes of entering a position is balanced. -/
theorem balanced_of_enter (nodup : rules.Nodup) {n : Nat} {s : State} {stack : CallStack}
    (hs : ground.net.get? n = some s) (fits : Fits ground.net rules top w.running stack)
    (rest : Balanced ground.net rules top w.running w.tasks)
    (opened : w.enter ground n s stack = .ok t) :
    Balanced ground.net rules top t.running t.tasks ∧ t.entered = w.entered := by
  unfold Walk.enter at opened
  split at opened
  · cases opened
    exact ⟨rest, rfl⟩
  · split at opened
    · split at opened
      · cases opened
        exact ⟨rest, rfl⟩
      · exact balanced_of_leave nodup fits rest opened
    · cases opened
      exact ⟨balanced_edgeTasks hs fits rest, rfl⟩

/-- A round keeps work balanced. It enters a new position, or the pending work weighs less than
before. -/
theorem Balanced.next (nodup : rules.Nodup) (callable : ∀ f ∈ frames ground.net, f.rule ∈ rules)
    (inv : Balanced ground.net rules top w.running w.tasks)
    (round : Walk.round ground w = .next t) :
    Balanced ground.net rules top t.running t.tasks ∧
      (unentered ground.net rules.length top t.entered <
          unentered ground.net rules.length top w.entered ∨
        unentered ground.net rules.length top t.entered =
          unentered ground.net rules.length top w.entered ∧ weight t.tasks < weight w.tasks) := by
  obtain ⟨tasks, entered, running, found⟩ := w
  unfold Walk.round at round
  simp only at inv round
  split at round
  · cases round
  · next _ rule on tasks =>
      cases round
      exact ⟨inv, .inr ⟨rfl, by simp [Task.weight]⟩⟩
  · next _ source index edge stack tasks =>
      obtain ⟨⟨here, fits⟩, rest⟩ := inv
      cases round
      obtain ⟨balanced, same, lighter⟩ :=
        balanced_followEdge (w := { tasks, entered, running, found }) callable here fits rest
      exact ⟨balanced, .inr ⟨congrArg _ same, lighter⟩⟩
  · next _ n stack tasks =>
      obtain ⟨fits, rest⟩ := inv
      split at round
      · cases round
        exact ⟨rest, .inr ⟨rfl, by simp [Task.weight]⟩⟩
      · next s hs =>
          split at round
          · cases round
            exact ⟨rest, .inr ⟨rfl, by simp [Task.weight]⟩⟩
          · next fresh =>
              split at round
              · cases round
              · next opened =>
                  cases round
                  obtain ⟨balanced, same⟩ := balanced_of_enter nodup hs fits rest opened
                  exact ⟨balanced, .inl (same ▸ unentered_insert_lt hs fits fresh)⟩

end Rounds

/-- A walk with balanced work ends. -/
theorem ends_of_balanced (ground : Ground) {rules : List Int} {top : Nat} (nodup : rules.Nodup)
    (callable : ∀ f ∈ frames ground.net, f.rule ∈ rules) {w : Walk}
    (balanced : Balanced ground.net rules top w.running w.tasks) :
    Loop.Ends (Walk.round ground) w :=
  Loop.Ends.of_measure
    (fun w => Balanced ground.net rules top w.running w.tasks)
    (fun w => (unentered ground.net rules.length top w.entered, weight w.tasks))
    (fun _ _ inv round => inv.next nodup callable round) balanced

/-- A walk ends, wherever it starts. -/
theorem ends (ground : Ground) (state base : Nat) :
    Loop.Ends (Walk.round ground) (Walk.start state base) := by
  have fits : Fits ground.net (calledRules ground.net) base [] ⟨[], base⟩ :=
    ⟨Nat.zero_le _, by simp, Nat.le_refl _⟩
  exact ends_of_balanced ground (nodup_calledRules _) (fun _ => rule_mem_calledRules)
    ⟨fits, trivial⟩

/-- All that a walk finds. -/
def walk (ground : Ground) (state base : Nat) : Except LookaheadError SymbolSet :=
  Loop.run (Walk.round ground) (Walk.start state base) (ends ground state base)

end Lookahead

end GrammarNet
