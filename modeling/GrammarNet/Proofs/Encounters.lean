import GrammarNet.Proofs.RuleClosed

/-!
What a lookahead walk meets on its way.

A walk takes up one piece of work after the other. It meets an edge when it takes up the work of
following it, also when the edge leads nowhere, and it meets the end when it takes up a position
where the outermost rule can end. All that a walk finds, it finds in this way, and what it has found
it keeps. A position is entered once, but what is recorded on entering it is there when the walk
comes to it again. So a walk that has an answer has found exactly what it has met (`mem_walk_iff`).

Nothing is asked of the network for this, and nothing is said about which positions a walk comes to.
A walk has an answer as soon as all states to return to are there (`exists_walk`). Two walks that
differ in how they treat predicates go the same way when no predicate is met (`walk_seeing_eq`).
-/

namespace GrammarNet

namespace Lookahead

/-- The walk takes up this piece of work at some moment. -/
def TakesUp (ground : Ground) (n base : Nat) (task : Task) : Prop :=
  ∃ w tasks, Loop.Reaches (Walk.round ground) (.start n base) w ∧ w.tasks = task :: tasks

/-- The walk meets an edge with such a label. -/
def MeetsLabel (ground : Ground) (n base : Nat) (P : Label → Prop) : Prop :=
  ∃ m i t stack, TakesUp ground n base (.follow m i t stack) ∧ P t.label

/-- The walk meets an edge that asks a question about the parse. -/
def MeetsPredicate (ground : Ground) (n base : Nat) : Prop :=
  MeetsLabel ground n base fun l => l.isPredicate = true

/-- The walk meets an edge that consumes the symbol. -/
def MeetsSymbol (ground : Ground) (n base : Nat) (x : Int) : Prop :=
  MeetsLabel ground n base fun l => l.accepts Symbol.firstUser ground.net.maxSymbol x = true

/-- The outermost rule can end in the position. -/
def EndsIn (ground : Ground) (n : Nat) (stack : CallStack) : Prop :=
  ∃ s, ground.net.get? n = some s ∧
    (ground.Halts n stack ∨ (s.kind = .ruleStop ∧ .ended ∈ stack.returns ground.graph))

/-- The walk comes to where the outermost rule can end. -/
def MeetsEnd (ground : Ground) (n base : Nat) : Prop :=
  ∃ m stack, TakesUp ground n base (.visit m stack) ∧ EndsIn ground m stack

/-- The walk meets what makes it record the symbol. -/
inductive Notes (ground : Ground) (n base : Nat) : Int → Prop where
  | symbol {x : Int} : MeetsSymbol ground n base x → Notes ground n base x
  | predicate : ground.options.seeThroughPredicates = false → MeetsPredicate ground n base →
      Notes ground n base Symbol.invalid
  | ending : MeetsEnd ground n base → Notes ground n base ground.options.boundary

variable {ground : Ground} {n base : Nat} {w w' : Walk}

/-! ### The work of a walk is about edges of the network -/

/-- The stack is one of a walk that starts on the node `base`: its calls are edges of the network,
and it stands on this node or on one below it. -/
structure Grounded (ground : Ground) (base : Nat) (stack : CallStack) : Prop where
  traced : Traced ground.net stack
  below : Relation.ReflTransGen ground.graph.Calls base stack.base

theorem Grounded.enter {m i returnTo target : Nat} {rule level : Int} {stack : CallStack}
    (grounded : Grounded ground base stack)
    (edge : edge? ground.net m i = some ⟨target, .call returnTo rule level⟩) :
    Grounded ground base (stack.enter ⟨m, i, rule, returnTo⟩) where
  traced := List.forall_mem_cons.mpr ⟨⟨target, level, edge⟩, grounded.traced⟩
  below := grounded.below

/-- The work is about an edge of the network, with a stack of the walk. -/
def Task.Grounded (ground : Ground) (base : Nat) : Task → Prop
  | .visit _ stack => Lookahead.Grounded ground base stack
  | .follow m i t stack => edge? ground.net m i = some t ∧ Lookahead.Grounded ground base stack
  | .restore .. => True

theorem Task.grounded_visit {m : Nat} {stack : CallStack} :
    (Task.visit m stack).Grounded ground base ↔ Lookahead.Grounded ground base stack :=
  Iff.rfl

theorem grounded_edgeTasks {m : Nat} {s : State} {stack : CallStack}
    (hs : ground.net.get? m = some s) (grounded : Grounded ground base stack) :
    ∀ task ∈ edgeTasks m stack s.transitions, task.Grounded ground base := by
  intro task mem
  obtain ⟨⟨t, i⟩, listed, rfl⟩ := List.mem_map.mp mem
  exact ⟨edge?_eq_some hs (List.mem_zipIdx_iff_getElem?.mp listed), grounded⟩

theorem grounded_returnTasks {stack : CallStack} (grounded : Grounded ground base stack) :
    ∀ task ∈ returnTasks (stack.returns ground.graph), task.Grounded ground base := by
  intro task mem
  obtain ⟨way, listed, made⟩ := List.mem_filterMap.mp mem
  cases way with
  | ended => cases made
  | resume r rest =>
      cases made
      have pops := CallStack.resume_mem_returns_iff.mp listed
      exact ⟨grounded.traced.of_pops pops, pops_below pops grounded.below⟩

/-- What a round plans is about edges of the network. -/
theorem Took.grounded (took : Took ground w w')
    (grounded : ∀ task ∈ w.tasks, task.Grounded ground base) :
    ∀ task ∈ w'.tasks, task.Grounded ground base := by
  have behind : ∀ {task tasks}, w.tasks = task :: tasks →
      task.Grounded ground base ∧ ∀ other ∈ tasks, other.Grounded ground base := by
    intro task tasks front
    rw [front] at grounded
    exact List.forall_mem_cons.mp grounded
  cases took with
  | passed front _ =>
      obtain ⟨⟨-, stack⟩, rest⟩ := behind front
      exact List.forall_mem_cons.mpr ⟨stack, rest⟩
  | @called n i returnTo t rule level stack tasks front label _ =>
      obtain ⟨⟨edge, stack⟩, rest⟩ := behind front
      have edge : edge? ground.net n i = some ⟨t.target, .call returnTo rule level⟩ := by
        rw [edge, ← label]
      exact List.forall_mem_cons.mpr ⟨stack.enter edge, List.forall_mem_cons.mpr ⟨trivial, rest⟩⟩
  | left front _ _ _ _ _ _ =>
      obtain ⟨stack, rest⟩ := behind front
      refine List.forall_mem_append.mpr ⟨grounded_returnTasks stack, ?_⟩
      exact List.forall_mem_cons.mpr ⟨trivial, rest⟩
  | opened front hs _ _ _ =>
      obtain ⟨stack, rest⟩ := behind front
      exact List.forall_mem_append.mpr ⟨grounded_edgeTasks hs stack, rest⟩
  | restored front => exact (behind front).2
  | barred front _ _ => exact (behind front).2
  | noted front _ _ => exact (behind front).2
  | consumed front _ => exact (behind front).2
  | absent front _ => exact (behind front).2
  | known front _ => exact (behind front).2
  | finished front _ _ _ => exact (behind front).2

theorem grounded_of_reaches (reaches : Loop.Reaches (Walk.round ground) (.start n base) w) :
    ∀ task ∈ w.tasks, task.Grounded ground base := by
  refine reaches.invariant (motive := fun w => ∀ task ∈ w.tasks, task.Grounded ground base)
    (fun _ _ grounded round => (took_of_round round).grounded grounded) ?_
  exact List.forall_mem_singleton.mpr ⟨traced_nil ground.net base, .refl⟩

theorem TakesUp.grounded {task : Task} (takes : TakesUp ground n base task) :
    task.Grounded ground base := by
  obtain ⟨w, tasks, reaches, front⟩ := takes
  exact grounded_of_reaches reaches task (front ▸ List.mem_cons_self)

/-- At every moment of a walk, its work is planned as the rules being run say. -/
theorem planned_of_reaches (aligned : Aligned ground ⟨n, [], base⟩)
    (reaches : Loop.Reaches (Walk.round ground) (.start n base) w) :
    Planned ground ⟨n, [], base⟩ w.running w.tasks :=
  reaches.invariant (motive := fun w => Planned ground ⟨n, [], base⟩ w.running w.tasks)
    (fun _ _ planned round => (took_of_round round).planned aligned List.nodup_nil planned)
    (invariant_start ground n base).planned

/-- The positions that a walk takes up can be reached. -/
theorem TakesUp.reach {m : Nat} {stack : CallStack} (takes : TakesUp ground n base (.visit m stack))
    (aligned : Aligned ground ⟨n, [], base⟩) : Reach ground ⟨n, [], base⟩ ⟨m, stack⟩ := by
  obtain ⟨w, tasks, reaches, front⟩ := takes
  have planned := planned_of_reaches aligned reaches
  rw [front] at planned
  exact planned.1.2

/-- A walk has an answer when the network goes on after a call at a state that is there, and so does
each stack of the node. -/
theorem exists_walk
    (follows : ground.net.All fun _ s => ∀ t ∈ s.transitions, ∀ follow ∈ t.label.follow?.toList,
      (ground.net.get? follow).isSome)
    (live : ground.graph.ReturnsLive ground.net base) :
    ∃ found, walk ground n base = .ok found := by
  obtain ⟨w, reaches, last⟩ := Loop.exists_last (ends ground n base)
  rcases round_done last with
    ⟨-, answer⟩ | ⟨m, s, stack, tasks, r, rest, front, -, -, -, mem, dead, -⟩
  · exact ⟨w.found, answer⟩
  · have top : Task.Grounded ground base (.visit m stack) :=
      grounded_of_reaches reaches _ (front ▸ List.mem_cons_self)
    obtain ⟨traced, below⟩ := Task.grounded_visit.mp top
    have pops := CallStack.resume_mem_returns_iff.mp mem
    exact absurd dead (state?_of_pops follows live traced below pops)

/-- An edge that is met is an edge of the network. -/
theorem MeetsLabel.exists_edge {P : Label → Prop} (meets : MeetsLabel ground n base P) :
    ∃ m s t, ground.net.get? m = some s ∧ t ∈ s.transitions ∧ P t.label := by
  obtain ⟨m, i, t, stack, takes, label⟩ := meets
  obtain ⟨edge, -⟩ := takes.grounded
  obtain ⟨s, hs, ht⟩ := Option.bind_eq_some_iff.mp edge
  exact ⟨m, s, t, hs, List.mem_of_getElem? ht, label⟩

/-! ### What is found was met -/

/-- A symbol that a round records is met by then. -/
theorem Took.met (took : Took ground w w')
    (reaches : Loop.Reaches (Walk.round ground) (.start n base) w)
    (met : ∀ x ∈ w.found, Notes ground n base x) : ∀ x ∈ w'.found, Notes ground n base x := by
  cases took with
  | noted front asks closed =>
      intro x mem
      rcases SymbolSet.mem_addSymbol.mp mem with rfl | mem
      · exact .predicate closed ⟨_, _, _, _, ⟨w, _, reaches, front⟩, asks⟩
      · exact met x mem
  | consumed front _ =>
      intro x mem
      rcases SymbolSet.mem_union.mp mem with mem | mem
      · exact met x mem
      · exact .symbol ⟨_, _, _, _, ⟨w, _, reaches, front⟩, mem_consumed.mp mem⟩
  | finished front hs stopped _ =>
      intro x mem
      rcases SymbolSet.mem_addSymbol.mp mem with rfl | mem
      · refine .ending ⟨_, _, ⟨w, _, reaches, front⟩, _, hs, stopped.imp_right ?_⟩
        rintro ⟨kind, empty⟩
        rw [CallStack.isEmpty_iff.mp empty, CallStack.returns_root]
        exact ⟨kind, List.mem_cons_self⟩
      · exact met x mem
  | left front hs kind _ _ _ _ =>
      intro x mem
      simp only at mem
      split at mem
      · next ended =>
          rcases SymbolSet.mem_addSymbol.mp mem with rfl | mem
          · exact .ending ⟨_, _, ⟨w, _, reaches, front⟩, _, hs,
              .inr ⟨kind, List.contains_iff_mem.mp ended⟩⟩
          · exact met x mem
      · exact met x mem
  | _ => exact met

theorem met_of_reaches (reaches : Loop.Reaches (Walk.round ground) (.start n base) w) :
    ∀ x ∈ w.found, Notes ground n base x := by
  induction reaches with
  | start => exact fun x mem => absurd mem SymbolSet.not_mem_empty
  | next reaches round ih => exact (took_of_round round).met reaches ih

/-! ### What is met is found -/

theorem Took.found_grows (took : Took ground w w') : ∀ x ∈ w.found, x ∈ w'.found := by
  intro x mem
  cases took with
  | noted => exact SymbolSet.mem_addSymbol.mpr (.inr mem)
  | consumed => exact SymbolSet.mem_union.mpr (.inl mem)
  | finished => exact SymbolSet.mem_addSymbol.mpr (.inr mem)
  | left =>
      simp only
      split
      · exact SymbolSet.mem_addSymbol.mpr (.inr mem)
      · exact mem
  | _ => exact mem

/-- Where the outermost rule can end, the end is recorded when the position is entered. -/
def EndsNoted (ground : Ground) (w : Walk) : Prop :=
  ∀ m stack, Traced ground.net stack → w.entered.contains (stack.key m) = true →
    EndsIn ground m stack → ground.options.boundary ∈ w.found

/-- A position that is entered with its end recorded. -/
theorem EndsNoted.enter {m : Nat} {stack : CallStack} {tasks : List Task} {running : List Int}
    {found : SymbolSet} (noted : EndsNoted ground w) (traced : Traced ground.net stack)
    (grows : ∀ x ∈ w.found, x ∈ found)
    (ending : EndsIn ground m stack → ground.options.boundary ∈ found) :
    EndsNoted ground ⟨tasks, w.entered.insert (stack.key m), running, found⟩ := by
  intro m' stack' traced' seen ends
  rw [Std.TreeSet.contains_insert, Bool.or_eq_true] at seen
  rcases seen with same | seen
  · obtain ⟨rfl, rfl⟩ := traced.key_inj traced' (by simpa using same)
    exact ending ends
  · exact grows _ (noted m' stack' traced' seen ends)

theorem Took.endsNoted (took : Took ground w w')
    (grounded : ∀ task ∈ w.tasks, task.Grounded ground base) (noted : EndsNoted ground w) :
    EndsNoted ground w' := by
  have top : ∀ {m stack tasks}, w.tasks = .visit m stack :: tasks → Traced ground.net stack :=
    fun front => (Task.grounded_visit.mp (grounded _ (front ▸ List.mem_cons_self))).traced
  have grows := took.found_grows
  cases took with
  | finished front _ _ _ =>
      exact noted.enter (top front) grows fun _ => SymbolSet.mem_addSymbol.mpr (.inl rfl)
  | left front hs kind going _ _ _ =>
      refine noted.enter (top front) grows ?_
      rintro ⟨s', hs', halts | ⟨-, ended⟩⟩
      · exact absurd halts going
      · rw [if_pos (List.contains_iff_mem.mpr ended)]
        exact SymbolSet.mem_addSymbol.mpr (.inl rfl)
  | opened front hs kind going _ =>
      refine noted.enter (top front) grows ?_
      rintro ⟨s', hs', halts | ⟨kind', -⟩⟩
      · exact absurd halts going
      · cases hs.symm.trans hs'
        exact absurd kind' kind
  | _ => exact fun m stack traced seen ends => grows _ (noted m stack traced seen ends)

theorem endsNoted_of_reaches (reaches : Loop.Reaches (Walk.round ground) (.start n base) w) :
    EndsNoted ground w := by
  induction reaches with
  | start => exact fun m stack _ seen => absurd seen (by simp [Walk.start])
  | next reaches round ih => exact (took_of_round round).endsNoted (grounded_of_reaches reaches) ih

/-- A walk that is over and did not fail has found what it answers. -/
theorem found_of_last {found : SymbolSet} (last : Walk.round ground w = .done (.ok found)) :
    w.tasks = [] ∧ w.found = found := by
  rcases round_done last with ⟨front, same⟩ | ⟨_, _, _, _, _, _, _, _, _, _, _, _, failed⟩
  · exact ⟨front, (Except.ok.inj same).symm⟩
  · cases failed

/-- All that was found by some moment is in the answer. -/
theorem mem_of_run {ends : Loop.Ends (Walk.round ground) w} {found : SymbolSet}
    (answer : Loop.run (Walk.round ground) w ends = .ok found) : ∀ x ∈ w.found, x ∈ found := by
  intro x mem
  obtain ⟨last, reaches, stopped⟩ := Loop.exists_last ends
  rw [answer] at stopped
  rw [← (found_of_last stopped).2]
  exact reaches.invariant (motive := fun w => x ∈ w.found)
    (fun _ _ mem round => (took_of_round round).found_grows x mem) mem

/-- Work that a walk with an answer takes up is done in one more round, and what is found by then is
in the answer. -/
theorem TakesUp.round {task : Task} {found : SymbolSet} (takes : TakesUp ground n base task)
    (answer : walk ground n base = .ok found) :
    ∃ w w' tasks, Loop.Reaches (Walk.round ground) (.start n base) w ∧ w.tasks = task :: tasks ∧
      Took ground w w' ∧ ∀ x ∈ w'.found, x ∈ found := by
  obtain ⟨w, tasks, reaches, front⟩ := takes
  obtain ⟨ends', same⟩ := reaches.run_eq (ends ground n base)
  have answer' : Loop.run (Walk.round ground) w ends' = .ok found := same ▸ answer
  cases round : Walk.round ground w with
  | next w' =>
      have later := (Loop.run_next ends' round).symm.trans answer'
      exact ⟨w, w', tasks, reaches, front, took_of_round round, mem_of_run later⟩
  | done result =>
      obtain rfl := (Loop.run_done ends' round).symm.trans answer'
      cases front.symm.trans (found_of_last round).1

/-- Taking up an edge, a walk records what is recorded there. -/
theorem Took.mem_of_shows {m i : Nat} {t : Transition} {stack : CallStack} {tasks : List Task}
    {x : Int} (took : Took ground w w') (front : w.tasks = .follow m i t stack :: tasks)
    (shows : Shows ground t x) : x ∈ w'.found := by
  cases took with
  | consumed front' eats =>
      cases front.symm.trans front'
      exact SymbolSet.mem_union.mpr (.inr (shows.of_eats eats))
  | noted front' asks _ =>
      cases front.symm.trans front'
      exact SymbolSet.mem_addSymbol.mpr (.inl (shows.of_asks asks))
  | passed front' pass =>
      cases front.symm.trans front'
      exact absurd shows (not_shows_of_passes pass)
  | called front' label _ =>
      cases front.symm.trans front'
      exact absurd shows (not_shows_of_call label)
  | barred front' label _ =>
      cases front.symm.trans front'
      exact absurd shows (not_shows_of_call label)
  | _ front' => cases front.symm.trans front'

/-- What is recorded at an edge is found when the edge is met. -/
theorem TakesUp.mem_of_shows {m i : Nat} {t : Transition} {stack : CallStack} {found : SymbolSet}
    {x : Int} (takes : TakesUp ground n base (.follow m i t stack))
    (answer : walk ground n base = .ok found) (shows : Shows ground t x) : x ∈ found := by
  obtain ⟨w, w', tasks, -, front, took, kept⟩ := takes.round answer
  exact kept x (took.mem_of_shows front shows)

/-- The mark of a predicate is found when a predicate is met and not looked through. -/
theorem mem_walk_of_predicate {found : SymbolSet} (answer : walk ground n base = .ok found)
    (closed : ground.options.seeThroughPredicates = false)
    (meets : MeetsPredicate ground n base) : Symbol.invalid ∈ found := by
  obtain ⟨m, i, t, stack, takes, asks⟩ := meets
  exact takes.mem_of_shows answer (.barrier asks closed)

/-- Taking up a position at a state that is there, a walk has entered it. -/
theorem Took.entered {m : Nat} {s : State} {stack : CallStack} {tasks : List Task}
    (took : Took ground w w') (front : w.tasks = .visit m stack :: tasks)
    (hs : ground.net.get? m = some s) : w'.entered.contains (stack.key m) = true := by
  cases took with
  | absent front' dead =>
      cases front.symm.trans front'
      cases hs.symm.trans dead
  | known front' seen =>
      cases front.symm.trans front'
      exact seen
  | finished front' _ _ _ =>
      cases front.symm.trans front'
      exact Std.TreeSet.contains_insert_self
  | left front' _ _ _ _ _ _ =>
      cases front.symm.trans front'
      exact Std.TreeSet.contains_insert_self
  | opened front' _ _ _ _ =>
      cases front.symm.trans front'
      exact Std.TreeSet.contains_insert_self
  | _ front' => cases front.symm.trans front'

/-- The mark of the end is found where the outermost rule can end, also when the position was
entered before. -/
theorem mem_walk_of_end {found : SymbolSet} (answer : walk ground n base = .ok found)
    (meets : MeetsEnd ground n base) : ground.options.boundary ∈ found := by
  obtain ⟨m, stack, takes, s, hs, ends⟩ := meets
  obtain ⟨w, w', tasks, reaches, front, took, kept⟩ := takes.round answer
  have grounded := grounded_of_reaches reaches
  have noted := took.endsNoted grounded (endsNoted_of_reaches reaches)
  have top := Task.grounded_visit.mp (grounded _ (front ▸ List.mem_cons_self))
  exact kept _ (noted m stack top.traced (took.entered front hs) ⟨s, hs, ends⟩)

/-- A walk that has an answer has found exactly what it has met. -/
theorem mem_walk_iff {found : SymbolSet} {x : Int} (answer : walk ground n base = .ok found) :
    x ∈ found ↔ Notes ground n base x := by
  constructor
  · intro mem
    obtain ⟨last, reaches, stopped⟩ := Loop.exists_last (ends ground n base)
    rw [← walk, answer] at stopped
    exact met_of_reaches reaches x ((found_of_last stopped).2 ▸ mem)
  · intro meets
    cases meets with
    | symbol meets =>
        obtain ⟨m, i, t, stack, takes, accepts⟩ := meets
        exact takes.mem_of_shows answer (.symbol (mem_consumed.mpr accepts))
    | predicate closed meets => exact mem_walk_of_predicate answer closed meets
    | ending meets => exact mem_walk_of_end answer meets

/-- A symbol of the vocabulary is only recorded at an edge that consumes it. -/
theorem Notes.meetsSymbol {x : Int} (notes : Notes ground n base x) (user : Symbol.firstUser ≤ x) :
    MeetsSymbol ground n base x := by
  cases notes with
  | symbol meets => exact meets
  | predicate _ _ => exact absurd user (by decide)
  | ending _ =>
      have low : ground.options.boundary < Symbol.firstUser := by
        unfold LookaheadOptions.boundary
        split <;> decide
      exact absurd user (Int.not_le.mpr low)

/-- Walks have the same answer when they take the same rounds at all moments of one of them. -/
theorem walk_congr {ground' : Ground}
    (same : ∀ w, Loop.Reaches (Walk.round ground) (.start n base) w →
      Walk.round ground' w = Walk.round ground w) : walk ground' n base = walk ground n base :=
  Loop.run_congr (Loop.Reaches (Walk.round ground) (.start n base))
    (fun _ _ reaches round => reaches.next round) same (ends ground n base) (ends ground' n base)
    .start

/-! ### Walks that meet no predicate -/

/-- The same ground with predicates looked through or not. -/
abbrev Ground.seeing (ground : Ground) (see : Bool) : Ground :=
  { ground with options := { ground.options with seeThroughPredicates := see } }

theorem followEdge_seeing {m i : Nat} {t : Transition} {stack : CallStack} (see : Bool)
    (plain : t.label.isPredicate = false) :
    w.followEdge (ground.seeing see) m i t stack = w.followEdge ground m i t stack := by
  unfold Walk.followEdge
  cases hl : t.label with
  | predicate rule index ctx => simp [hl, Label.isPredicate] at plain
  | precedence level => simp [hl, Label.isPredicate] at plain
  | _ => rfl

theorem round_seeing (see : Bool)
    (plain : ∀ m i t stack tasks, w.tasks = .follow m i t stack :: tasks →
      t.label.isPredicate = false) :
    Walk.round (ground.seeing see) w = Walk.round ground w := by
  obtain ⟨tasks, entered, running, found⟩ := w
  cases tasks with
  | nil => rfl
  | cons task tasks =>
      cases task with
      | restore rule on => rfl
      | visit m stack => rfl
      | follow m i t stack =>
          exact congrArg Round.next (followEdge_seeing see (plain m i t stack tasks rfl))

/-- A walk that meets no predicate has the same answer when predicates are looked through, and when
they are not. -/
theorem walk_seeing_eq (see : Bool) (unmet : ¬ MeetsPredicate ground n base) :
    walk (ground.seeing see) n base = walk ground n base := by
  apply walk_congr
  intro w reaches
  apply round_seeing
  intro m i t stack tasks front
  exact (Bool.not_eq_true _).mp fun asks =>
    unmet ⟨m, i, t, stack, ⟨w, tasks, reaches, front⟩, asks⟩

end Lookahead

end GrammarNet
