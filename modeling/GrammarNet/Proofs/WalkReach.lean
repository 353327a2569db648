import GrammarNet.Proofs.Rounds

/-!
A lookahead walk finds exactly what is emitted in the positions it can reach.

The walk keeps the rules being run in one list and the positions entered in one set, for all of its
work together. Three invariants say that neither carries over from one piece of work to another.

* `Planned`: when a piece of work comes to the front, the rules being run are those of the calls on
  its stack, and its position is one that `Moves` reaches. At the end no rule is being run.
* `Sound`: what was found is emitted in a position that is reached.
* `Explored`: from an entered position, every further position is entered or planned for, and what
  is emitted there was found or is planned for.

`walk_spec` puts them together. It asks that a rule is left with a call of that rule on top
(`Aligned`), and that the states to return to are there (`Returning`).
-/

namespace GrammarNet

namespace Lookahead

/-- Wherever a call is left, it is a call of the rule that ends there. -/
def Aligned (ground : Ground) (start : Position) : Prop :=
  ∀ {n : Nat} {s : State} {f : Frame} {calls : List Frame} {base : Nat},
    Reach ground start ⟨n, f :: calls, base⟩ → ground.net.get? n = some s → s.kind = .ruleStop →
    s.rule = f.rule

/-- Wherever a rule is left, the states to return to are in the network. -/
def Returning (ground : Ground) (start : Position) : Prop :=
  ∀ {n : Nat} {s : State} {r : Int} {stack rest : CallStack},
    Reach ground start ⟨n, stack⟩ → ground.net.get? n = some s → s.kind = .ruleStop →
    .resume r rest ∈ stack.returns ground.graph → ground.net.state? r ≠ none

variable {ground : Ground} {start : Position}

/-! ### No rule is on a stack twice -/

theorem Moves.nodup {p q : Position} (move : Moves ground p q) (nodup : p.stack.rules.Nodup) :
    q.stack.rules.Nodup := by
  cases move with
  | cross _ _ _ _ crosses =>
      cases crosses with
      | pass _ => exact nodup
      | call _ idle => exact List.nodup_cons.mpr ⟨idle, nodup⟩
  | back _ _ _ mem =>
      cases CallStack.resume_mem_returns_iff.mp mem with
      | call => exact (List.nodup_cons.mp nodup).2
      | drop _ => exact List.nodup_nil

theorem Reach.nodup {p q : Position} (reach : Reach ground p q) (nodup : p.stack.rules.Nodup) :
    q.stack.rules.Nodup := by
  induction reach with
  | refl => exact nodup
  | tail _ move ih => exact move.nodup ih

/-! ### The rules being run are those on the stack -/

/-- The rules being run are those of the calls on the stack. -/
def Agree (running : List Int) (stack : CallStack) : Prop :=
  ∀ r, r ∈ running ↔ r ∈ stack.rules

/-- The edge belongs to a state that the walk reaches and does not end at. -/
structure Open (ground : Ground) (start : Position) (n i : Nat) (t : Transition)
    (stack : CallStack) : Prop where
  reach : Reach ground start ⟨n, stack⟩
  edge : ∃ s, ground.net.get? n = some s ∧ s.kind ≠ .ruleStop ∧ s.transitions[i]? = some t
  going : ¬ ground.Halts n stack

theorem Open.moves {n i : Nat} {t : Transition} {stack : CallStack} {q : Position}
    (opened : Open ground start n i t stack) (crosses : Crosses ground.options n i t stack q) :
    Reach ground start q := by
  obtain ⟨s, hs, kind, ht⟩ := opened.edge
  exact opened.reach.tail (.cross hs kind opened.going ht crosses)

theorem Open.emits {n i : Nat} {t : Transition} {stack : CallStack} {x : Int}
    (opened : Open ground start n i t stack) (shows : Shows ground t x) :
    Emits ground ⟨n, stack⟩ x := by
  obtain ⟨s, hs, kind, ht⟩ := opened.edge
  exact .edge hs kind opened.going ht shows

/-- All work is in positions that are reached, and it finds the rules being run as the calls on its
stack say, once the work before it is done. -/
def Planned (ground : Ground) (start : Position) : List Int → List Task → Prop
  | running, [] => ∀ r, r ∉ running
  | running, .visit n stack :: tasks =>
      (Agree running stack ∧ Reach ground start ⟨n, stack⟩) ∧ Planned ground start running tasks
  | running, .follow n i t stack :: tasks =>
      (Agree running stack ∧ Open ground start n i t stack) ∧ Planned ground start running tasks
  | running, .restore rule on :: tasks =>
      Planned ground start (setRunning running rule on) tasks

theorem Planned.congr {xs ys : List Int} {tasks : List Task} (same : ∀ r, r ∈ xs ↔ r ∈ ys)
    (planned : Planned ground start xs tasks) : Planned ground start ys tasks := by
  induction tasks generalizing xs ys with
  | nil =>
      intro r hr
      exact planned r ((same r).mpr hr)
  | cons task tasks ih =>
      cases task with
      | visit n stack =>
          exact ⟨⟨fun r => (same r).symm.trans (planned.1.1 r), planned.1.2⟩, ih same planned.2⟩
      | follow n i t stack =>
          exact ⟨⟨fun r => (same r).symm.trans (planned.1.1 r), planned.1.2⟩, ih same planned.2⟩
      | restore rule on =>
          refine ih (fun r => ?_) planned
          rw [mem_setRunning, mem_setRunning]
          split
          · exact Iff.rfl
          · exact same r

theorem planned_edgeTasks {running : List Int} {n : Nat} {s : State} {stack : CallStack}
    {tasks : List Task} (agree : Agree running stack)
    (opened : ∀ i t, s.transitions[i]? = some t → Open ground start n i t stack)
    (rest : Planned ground start running tasks) :
    Planned ground start running (edgeTasks n stack s.transitions ++ tasks) := by
  have all : ∀ p ∈ s.transitions.zipIdx, Open ground start n p.2 p.1 stack :=
    fun p hp => opened p.2 p.1 (List.mem_zipIdx_iff_getElem?.mp hp)
  unfold edgeTasks
  generalize s.transitions.zipIdx = l at all
  induction l with
  | nil => exact rest
  | cons p l ih =>
      exact ⟨⟨agree, all p List.mem_cons_self⟩, ih fun q hq => all q (List.mem_cons_of_mem p hq)⟩

theorem planned_returnTasks {running : List Int} {returns : List CallStack.Return}
    {tasks : List Task}
    (ready : ∀ r stack, .resume r stack ∈ returns →
      Agree running stack ∧ Reach ground start ⟨r.toNat, stack⟩)
    (rest : Planned ground start running tasks) :
    Planned ground start running (returnTasks returns ++ tasks) := by
  induction returns with
  | nil => exact rest
  | cons way returns ih =>
      have tail := ih fun r stack h => ready r stack (List.mem_cons_of_mem way h)
      cases way with
      | ended => exact tail
      | resume r stack => exact ⟨ready r stack List.mem_cons_self, tail⟩

/-- What is left of a stack agrees with the rules being run without the one that was left. -/
theorem Agree.of_pops {running : List Int} {stack rest : CallStack} {rule r : Int}
    (agree : Agree running stack) (nodup : stack.rules.Nodup)
    (top : ∀ f calls, stack.calls = f :: calls → rule = f.rule)
    (pops : stack.Pops ground.graph r rest) : Agree (setRunning running rule false) rest := by
  intro r'
  rw [mem_setRunning, agree r']
  cases pops with
  | drop _ => simp
  | @call f calls base =>
      obtain rfl := top f calls rfl
      have fresh : f.rule ∉ (⟨calls, base⟩ : CallStack).rules := (List.nodup_cons.mp nodup).1
      have split : r' ∈ (⟨f :: calls, base⟩ : CallStack).rules ↔
          r' = f.rule ∨ r' ∈ (⟨calls, base⟩ : CallStack).rules := List.mem_cons
      rw [split]
      by_cases h : r' = f.rule
      · simp [h, fresh]
      · simp [h]

theorem Took.planned {w w' : Walk} (took : Took ground w w') (aligned : Aligned ground start)
    (nodup : start.stack.rules.Nodup) (planned : Planned ground start w.running w.tasks) :
    Planned ground start w'.running w'.tasks := by
  cases took with
  | restored front =>
      rw [front] at planned
      exact planned
  | passed front pass =>
      rw [front] at planned
      obtain ⟨⟨agree, opened⟩, rest⟩ := planned
      exact ⟨⟨agree, opened.moves (.pass pass)⟩, rest⟩
  | @called n i returnTo t rule precedence stack tasks front label fresh =>
      rw [front] at planned
      obtain ⟨⟨agree, opened⟩, rest⟩ := planned
      have idle : rule ∉ stack.rules := fun h => fresh ((agree rule).mpr h)
      refine ⟨⟨fun r => ?_, opened.moves (.call label idle)⟩, ?_⟩
      · rw [mem_setRunning, CallStack.rules_enter, List.mem_cons, agree r]
        by_cases h : r = rule <;> simp [h]
      · have undone : Planned ground start
            (setRunning (setRunning w.running rule true) rule false) tasks :=
          rest.congr fun r => mem_setRunning_undo (by simp [fresh])
        exact undone
  | barred front _ _ =>
      rw [front] at planned
      exact planned.2
  | noted front _ _ =>
      rw [front] at planned
      exact planned.2
  | consumed front _ =>
      rw [front] at planned
      exact planned.2
  | absent front _ =>
      rw [front] at planned
      exact planned.2
  | known front _ =>
      rw [front] at planned
      exact planned.2
  | finished front _ _ =>
      rw [front] at planned
      exact planned.2
  | @left n s stack tasks front hs kind going =>
      rw [front] at planned
      obtain ⟨⟨agree, reach⟩, rest⟩ := planned
      have top : ∀ f calls, stack.calls = f :: calls → s.rule = f.rule := by
        intro f calls h
        obtain ⟨cs, base⟩ := stack
        simp only at h
        subst h
        exact aligned reach hs kind
      refine planned_returnTasks (fun r rest mem => ⟨?_, reach.tail (.back hs kind going mem)⟩) ?_
      · exact agree.of_pops (reach.nodup nodup) top (CallStack.resume_mem_returns_iff.mp mem)
      · have undone : Planned ground start
            (setRunning (setRunning w.running s.rule false) s.rule (w.running.contains s.rule))
            tasks :=
          rest.congr fun r => mem_setRunning_undo List.contains_iff_mem
        exact undone
  | opened front hs kind going =>
      rw [front] at planned
      obtain ⟨⟨agree, reach⟩, rest⟩ := planned
      exact planned_edgeTasks agree (fun i t ht => ⟨reach, ⟨_, hs, kind, ht⟩, going⟩) rest

/-! ### What was found is emitted somewhere -/

/-- All symbols found are emitted in positions that are reached. -/
def Sound (ground : Ground) (start : Position) (found : SymbolSet) : Prop :=
  ∀ x ∈ found, ∃ p, Reach ground start p ∧ Emits ground p x

theorem Sound.addSymbol {found : SymbolSet} {p : Position} {x : Int}
    (sound : Sound ground start found) (reach : Reach ground start p) (emits : Emits ground p x) :
    Sound ground start (found.addSymbol x) := by
  intro y hy
  rcases SymbolSet.mem_addSymbol.mp hy with rfl | hy
  · exact ⟨p, reach, emits⟩
  · exact sound y hy

theorem Took.sound {w w' : Walk} (took : Took ground w w')
    (planned : Planned ground start w.running w.tasks) (sound : Sound ground start w.found) :
    Sound ground start w'.found := by
  cases took with
  | noted front asks closed =>
      rw [front] at planned
      obtain ⟨⟨-, opened⟩, -⟩ := planned
      exact sound.addSymbol opened.reach (opened.emits (.barrier asks closed))
  | consumed front _ =>
      rw [front] at planned
      obtain ⟨⟨-, opened⟩, -⟩ := planned
      intro x hx
      rcases SymbolSet.mem_union.mp hx with hx | hx
      · exact sound x hx
      · exact ⟨_, opened.reach, opened.emits (.symbol hx)⟩
  | finished front hs stopped =>
      rw [front] at planned
      obtain ⟨⟨-, reach⟩, -⟩ := planned
      refine sound.addSymbol reach ?_
      rcases stopped with halts | ⟨kind, empty⟩
      · exact .halt hs halts
      · refine .ended hs kind ?_
        rw [CallStack.isEmpty_iff.mp empty, CallStack.returns_root]
        exact List.mem_cons_self
  | left front hs kind going =>
      rw [front] at planned
      obtain ⟨⟨-, reach⟩, -⟩ := planned
      simp only
      split
      · next ended =>
          exact sound.addSymbol reach (.ended hs kind (List.contains_iff_mem.mp ended))
      · exact sound
  | _ => exact sound

/-! ### All that is reached is entered -/

/-- The positions to which a piece of work leads. -/
def Task.LeadsTo (ground : Ground) : Task → Position → Prop
  | .visit n stack, q => q = ⟨n, stack⟩
  | .follow n i t stack, q => Crosses ground.options n i t stack q
  | .restore .., _ => False

/-- The symbols that a piece of work records. -/
def Task.Tells (ground : Ground) : Task → Int → Prop
  | .follow _ _ t _, x => Shows ground t x
  | .visit .., _ | .restore .., _ => False

/-- The position was entered or is planned for, unless its state is not in the network. -/
def Covered (ground : Ground) (entered : Std.TreeSet (List Nat)) (tasks : List Task)
    (q : Position) : Prop :=
  ground.net.get? q.state = none ∨ entered.contains (q.stack.key q.state) = true ∨
    ∃ task ∈ tasks, task.LeadsTo ground q

/-- The symbol was found or is planned for. -/
def Told (ground : Ground) (found : SymbolSet) (tasks : List Task) (x : Int) : Prop :=
  x ∈ found ∨ ∃ task ∈ tasks, task.Tells ground x

/-- The start is covered, and so is what follows each entered position and is emitted there. -/
structure Explored (ground : Ground) (start : Position) (w : Walk) : Prop where
  begun : Covered ground w.entered w.tasks start
  moves : ∀ p q, Traced ground.net p.stack → w.entered.contains (p.stack.key p.state) = true →
    Moves ground p q → Covered ground w.entered w.tasks q
  emits : ∀ p x, Traced ground.net p.stack → w.entered.contains (p.stack.key p.state) = true →
    Emits ground p x → Told ground w.found w.tasks x

/-- The work in front may be replaced by work that covers the same. -/
theorem Explored.replace {w : Walk} {task : Task} {tasks tasks' : List Task} {running : List Int}
    {found : SymbolSet} (explored : Explored ground start w) (front : w.tasks = task :: tasks)
    (covers : ∀ q, task.LeadsTo ground q → Covered ground w.entered tasks' q)
    (tells : ∀ x, task.Tells ground x → Told ground found tasks' x)
    (kept : ∀ t ∈ tasks, t ∈ tasks') (grows : ∀ x ∈ w.found, x ∈ found) :
    Explored ground start ⟨tasks', w.entered, running, found⟩ := by
  have covered : ∀ {q}, Covered ground w.entered w.tasks q → Covered ground w.entered tasks' q := by
    rintro q (dead | seen | ⟨t, mem, leads⟩)
    · exact .inl dead
    · exact .inr (.inl seen)
    · rw [front] at mem
      rcases List.mem_cons.mp mem with rfl | mem
      · exact covers q leads
      · exact .inr (.inr ⟨t, kept t mem, leads⟩)
  have told : ∀ {x}, Told ground w.found w.tasks x → Told ground found tasks' x := by
    rintro x (mem | ⟨t, mem, tell⟩)
    · exact .inl (grows x mem)
    · rw [front] at mem
      rcases List.mem_cons.mp mem with rfl | mem
      · exact tells x tell
      · exact .inr ⟨t, kept t mem, tell⟩
  exact
    { begun := covered explored.begun
      moves := fun p q traced seen move => covered (explored.moves p q traced seen move)
      emits := fun p x traced seen emits => told (explored.emits p x traced seen emits) }

/-- A position is entered when the new work covers what follows it and is emitted there. -/
theorem Explored.enter {w : Walk} {n : Nat} {stack : CallStack} {tasks tasks' : List Task}
    {running : List Int} {found : SymbolSet} (explored : Explored ground start w)
    (front : w.tasks = .visit n stack :: tasks) (traced : Traced ground.net stack)
    (covers : ∀ q, Moves ground ⟨n, stack⟩ q →
      Covered ground (w.entered.insert (stack.key n)) tasks' q)
    (tells : ∀ x, Emits ground ⟨n, stack⟩ x → Told ground found tasks' x)
    (kept : ∀ t ∈ tasks, t ∈ tasks') (grows : ∀ x ∈ w.found, x ∈ found) :
    Explored ground start ⟨tasks', w.entered.insert (stack.key n), running, found⟩ := by
  have covered : ∀ {q}, Covered ground w.entered w.tasks q →
      Covered ground (w.entered.insert (stack.key n)) tasks' q := by
    rintro q (dead | seen | ⟨t, mem, leads⟩)
    · exact .inl dead
    · exact .inr (.inl (by simp [seen]))
    · rw [front] at mem
      rcases List.mem_cons.mp mem with rfl | mem
      · obtain rfl : q = ⟨n, stack⟩ := leads
        exact .inr (.inl (by simp))
      · exact .inr (.inr ⟨t, kept t mem, leads⟩)
  have told : ∀ {x}, Told ground w.found w.tasks x → Told ground found tasks' x := by
    rintro x (mem | ⟨t, mem, tell⟩)
    · exact .inl (grows x mem)
    · rw [front] at mem
      rcases List.mem_cons.mp mem with rfl | mem
      · cases tell
      · exact .inr ⟨t, kept t mem, tell⟩
  -- the key tells the new position apart from those entered before
  have split : ∀ p : Position, Traced ground.net p.stack →
      (w.entered.insert (stack.key n)).contains (p.stack.key p.state) = true →
      p = ⟨n, stack⟩ ∨ w.entered.contains (p.stack.key p.state) = true := by
    intro p hp seen
    rw [Std.TreeSet.contains_insert, Bool.or_eq_true] at seen
    rcases seen with same | seen
    · have same : stack.key n = p.stack.key p.state := by simpa using same
      obtain ⟨rfl, rfl⟩ := traced.key_inj hp same
      exact .inl rfl
    · exact .inr seen
  exact
    { begun := covered explored.begun
      moves := fun p q hp seen move => by
        rcases split p hp seen with rfl | seen
        · exact covers q move
        · exact covered (explored.moves p q hp seen move)
      emits := fun p x hp seen emits => by
        rcases split p hp seen with rfl | seen
        · exact tells x emits
        · exact told (explored.emits p x hp seen emits) }

theorem mem_edgeTasks {n i : Nat} {s : State} {t : Transition} {stack : CallStack}
    (ht : s.transitions[i]? = some t) : .follow n i t stack ∈ edgeTasks n stack s.transitions :=
  List.mem_map.mpr ⟨(t, i), List.mem_zipIdx_iff_getElem?.mpr ht, rfl⟩

theorem mem_returnTasks {returns : List CallStack.Return} {r : Int} {rest : CallStack}
    (mem : .resume r rest ∈ returns) : .visit r.toNat rest ∈ returnTasks returns :=
  List.mem_filterMap.mpr ⟨_, mem, rfl⟩

/-- Where the walk ends, nothing new is to be done. -/
theorem Explored.finish {w : Walk} {n : Nat} {s : State} {stack : CallStack} {tasks : List Task}
    (explored : Explored ground start w) (front : w.tasks = .visit n stack :: tasks)
    (traced : Traced ground.net stack) (hs : ground.net.get? n = some s)
    (stopped : ground.Halts n stack ∨ (s.kind = .ruleStop ∧ stack.isEmpty = true)) :
    Explored ground start
      { w with
        tasks
        entered := w.entered.insert (stack.key n)
        found := w.found.addSymbol ground.options.boundary } := by
  apply explored.enter front traced
  · intro q move
    exact absurd move (not_moves_of_stopped hs stopped)
  · intro x emits
    exact .inl (SymbolSet.mem_addSymbol.mpr (.inl (emits.of_stopped hs stopped)))
  · exact fun _ h => h
  · exact fun _ h => SymbolSet.mem_addSymbol.mpr (.inr h)

/-- The end of a rule is covered by the returns, and the mark of the end when one has ended. -/
theorem Explored.leave {w : Walk} {n : Nat} {s : State} {stack : CallStack} {tasks : List Task}
    {task : Task} {running : List Int} (explored : Explored ground start w)
    (front : w.tasks = .visit n stack :: tasks) (traced : Traced ground.net stack)
    (hs : ground.net.get? n = some s) (kind : s.kind = .ruleStop)
    (going : ¬ ground.Halts n stack) :
    Explored ground start
      { tasks := returnTasks (stack.returns ground.graph) ++ task :: tasks
        entered := w.entered.insert (stack.key n)
        running
        found :=
          if (stack.returns ground.graph).contains .ended then
            w.found.addSymbol ground.options.boundary
          else w.found } := by
  apply explored.enter front traced
  · intro q move
    obtain ⟨r, rest, mem, rfl⟩ := move.by_return hs kind
    exact .inr (.inr ⟨_, List.mem_append_left _ (mem_returnTasks mem), rfl⟩)
  · intro x emits
    obtain ⟨mark, mem⟩ := emits.by_return hs kind going
    rw [if_pos (List.contains_iff_mem.mpr mem)]
    exact .inl (SymbolSet.mem_addSymbol.mpr (.inl mark))
  · exact fun _ h => List.mem_append_right _ (List.mem_cons_of_mem _ h)
  · intro x hx
    split
    · exact SymbolSet.mem_addSymbol.mpr (.inr hx)
    · exact hx

/-- A state that ends no rule is covered by its edges. -/
theorem Explored.expand {w : Walk} {n : Nat} {s : State} {stack : CallStack} {tasks : List Task}
    (explored : Explored ground start w) (front : w.tasks = .visit n stack :: tasks)
    (traced : Traced ground.net stack) (hs : ground.net.get? n = some s)
    (kind : s.kind ≠ .ruleStop) (going : ¬ ground.Halts n stack) :
    Explored ground start
      { w with
        tasks := edgeTasks n stack s.transitions ++ tasks
        entered := w.entered.insert (stack.key n) } := by
  apply explored.enter front traced
  · intro q move
    obtain ⟨i, t, ht, crosses⟩ := move.by_edge hs kind
    exact .inr (.inr ⟨_, List.mem_append_left _ (mem_edgeTasks ht), crosses⟩)
  · intro x emits
    obtain ⟨i, t, ht, shows⟩ := emits.by_edge hs kind going
    exact .inr ⟨_, List.mem_append_left _ (mem_edgeTasks ht), shows⟩
  · exact fun _ h => List.mem_append_right _ h
  · exact fun _ h => h

theorem Took.explored {w w' : Walk} (took : Took ground w w')
    (planned : Planned ground start w.running w.tasks) (traced : Traced ground.net start.stack)
    (explored : Explored ground start w) : Explored ground start w' := by
  cases took with
  | restored front =>
      exact explored.replace front (fun q h => h.elim) (fun x h => h.elim) (fun _ h => h)
        fun _ h => h
  | passed front pass =>
      apply explored.replace front
      · intro q leads
        exact .inr (.inr ⟨_, List.mem_cons_self, leads.of_passes pass⟩)
      · intro x tells
        exact absurd tells (not_shows_of_passes pass)
      · exact fun _ h => List.mem_cons_of_mem _ h
      · exact fun _ h => h
  | called front label fresh =>
      apply explored.replace front
      · intro q leads
        exact .inr (.inr ⟨_, List.mem_cons_self, (leads.of_call label).2⟩)
      · intro x tells
        exact absurd tells (not_shows_of_call label)
      · exact fun _ h => List.mem_cons_of_mem _ (List.mem_cons_of_mem _ h)
      · exact fun _ h => h
  | barred front label running =>
      rw [front] at planned
      obtain ⟨⟨agree, -⟩, -⟩ := planned
      apply explored.replace front
      · intro q leads
        exact absurd ((agree _).mp running) (leads.of_call label).1
      · intro x tells
        exact absurd tells (not_shows_of_call label)
      · exact fun _ h => h
      · exact fun _ h => h
  | noted front asks closed =>
      apply explored.replace front
      · intro q leads
        exact absurd leads (not_crosses_of_asks asks closed)
      · intro x tells
        exact .inl (SymbolSet.mem_addSymbol.mpr (.inl (tells.of_asks asks)))
      · exact fun _ h => h
      · exact fun _ h => SymbolSet.mem_addSymbol.mpr (.inr h)
  | consumed front eats =>
      apply explored.replace front
      · intro q leads
        exact absurd leads (not_crosses_of_eats eats)
      · intro x tells
        exact .inl (SymbolSet.mem_union.mpr (.inr (tells.of_eats eats)))
      · exact fun _ h => h
      · exact fun _ h => SymbolSet.mem_union.mpr (.inl h)
  | absent front dead =>
      apply explored.replace front
      · rintro q rfl
        exact .inl dead
      · exact fun x h => h.elim
      · exact fun _ h => h
      · exact fun _ h => h
  | known front seen =>
      apply explored.replace front
      · rintro q rfl
        exact .inr (.inl seen)
      · exact fun x h => h.elim
      · exact fun _ h => h
      · exact fun _ h => h
  | finished front hs stopped =>
      rw [front] at planned
      obtain ⟨⟨-, reach⟩, -⟩ := planned
      exact explored.finish front (reach.traced traced) hs stopped
  | left front hs kind going =>
      rw [front] at planned
      obtain ⟨⟨-, reach⟩, -⟩ := planned
      exact explored.leave front (reach.traced traced) hs kind going
  | opened front hs kind going =>
      rw [front] at planned
      obtain ⟨⟨-, reach⟩, -⟩ := planned
      exact explored.expand front (reach.traced traced) hs kind going

/-! ### The walk as a whole -/

/-- All invariants of a walk. -/
structure Invariant (ground : Ground) (start : Position) (w : Walk) : Prop where
  planned : Planned ground start w.running w.tasks
  sound : Sound ground start w.found
  explored : Explored ground start w

theorem invariant_start (ground : Ground) (n base : Nat) :
    Invariant ground ⟨n, [], base⟩ (Walk.start n base) where
  planned := by
    refine ⟨⟨fun r => ?_, .refl⟩, fun r hr => ?_⟩
    · simp [Walk.start]
    · simp [Walk.start] at hr
  sound := by
    intro x hx
    simp [Walk.start] at hx
  explored :=
    { begun := .inr (.inr ⟨_, List.mem_cons_self, rfl⟩)
      moves := fun p q _ seen => by simp [Walk.start] at seen
      emits := fun p x _ seen => by simp [Walk.start] at seen }

theorem Took.invariant {w w' : Walk} (took : Took ground w w') (aligned : Aligned ground start)
    (nodup : start.stack.rules.Nodup) (traced : Traced ground.net start.stack)
    (inv : Invariant ground start w) : Invariant ground start w' where
  planned := took.planned aligned nodup inv.planned
  sound := took.sound inv.planned inv.sound
  explored := took.explored inv.planned traced inv.explored

/-- When no work is left, all that is reached was entered, so all that is emitted was found. -/
theorem Invariant.mem_found_iff {w : Walk} (inv : Invariant ground start w)
    (traced : Traced ground.net start.stack) (idle : w.tasks = []) {x : Int} :
    x ∈ w.found ↔ ∃ p, Reach ground start p ∧ Emits ground p x := by
  refine ⟨inv.sound x, ?_⟩
  have settled : ∀ {q}, Covered ground w.entered w.tasks q →
      ground.net.get? q.state = none ∨ w.entered.contains (q.stack.key q.state) = true := by
    rintro q (dead | seen | ⟨t, mem, -⟩)
    · exact .inl dead
    · exact .inr seen
    · rw [idle] at mem
      cases mem
  have entered : ∀ {p}, Reach ground start p →
      ground.net.get? p.state = none ∨ w.entered.contains (p.stack.key p.state) = true := by
    intro p reach
    induction reach with
    | refl => exact settled inv.explored.begun
    | tail reach move ih =>
        rcases ih with dead | seen
        · cases move with
          | cross hs _ _ _ _ => exact absurd (hs.symm.trans dead) (by simp)
          | back hs _ _ _ => exact absurd (hs.symm.trans dead) (by simp)
        · exact settled (inv.explored.moves _ _ (Reach.traced reach traced) seen move)
  rintro ⟨p, reach, emits⟩
  rcases entered reach with dead | seen
  · cases emits with
    | halt hs _ => exact absurd (hs.symm.trans dead) (by simp)
    | ended hs _ _ => exact absurd (hs.symm.trans dead) (by simp)
    | edge hs _ _ _ _ => exact absurd (hs.symm.trans dead) (by simp)
  · rcases inv.explored.emits p x (reach.traced traced) seen emits with mem | ⟨t, mem, -⟩
    · exact mem
    · rw [idle] at mem
      cases mem

/-- The answer has the symbols that are emitted in the positions reached, and no others. -/
def Answers (ground : Ground) (start : Position) (answer : Except LookaheadError SymbolSet) : Prop :=
  ∃ found, answer = .ok found ∧ ∀ x, x ∈ found ↔ ∃ p, Reach ground start p ∧ Emits ground p x

/-- A walk has an answer: the symbols emitted in the positions it can reach. -/
theorem walk_spec {n base : Nat} (aligned : Aligned ground ⟨n, [], base⟩)
    (returning : Returning ground ⟨n, [], base⟩) :
    Answers ground ⟨n, [], base⟩ (walk ground n base) := by
  have traced : Traced ground.net (⟨[], base⟩ : CallStack) := traced_nil ground.net base
  have keeps : ∀ w w', Invariant ground ⟨n, [], base⟩ w → Walk.round ground w = .next w' →
      Invariant ground ⟨n, [], base⟩ w' :=
    fun w w' inv next => (took_of_round next).invariant aligned List.nodup_nil traced inv
  have last : ∀ w answer, Invariant ground ⟨n, [], base⟩ w → Walk.round ground w = .done answer →
      Answers ground ⟨n, [], base⟩ answer := by
    intro w answer inv last
    rcases round_done last with
      ⟨none, rfl⟩ | ⟨m, s, stack, tasks, r, rest, front, hs, kind, -, mem, dead, -⟩
    · exact ⟨w.found, rfl, fun x => inv.mem_found_iff traced none⟩
    · have planned := inv.planned
      rw [front] at planned
      exact absurd dead (returning planned.1.2 hs kind mem)
  exact Loop.run_invariant keeps last (ends ground n base) (invariant_start ground n base)

end Lookahead

end GrammarNet
