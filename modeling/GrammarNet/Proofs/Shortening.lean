import GrammarNet.Proofs.Configurations

/-!
Ways through a rule that consume nothing, and why a walk misses none of them.

A walk does not call a rule that is on its stack. A way that calls a rule inside of itself and
completes the inner call can be shortened: what the inner call does, the outer call can do at once.
`Through` are the ways from a state to another of the same level, of a given size and without calls
of the rules to avoid. `Through.shorten` takes a rule out of a way through this rule, `Through.runs`
takes out every rule that is on the stack, and `Runs.reach` says that a walk goes such a way.
-/

namespace GrammarNet

namespace Lookahead

variable {net : Network} {graph : StackGraph}

/-- A way from a state to another that consumes nothing, completes its calls and calls none of the
rules to avoid. The number is its size. -/
inductive Through (net : Network) (avoid : List Int) : Nat → Nat → Nat → Prop where
  | here {n : Nat} : Through net avoid 0 n n
  | silent {k n m e : Nat} :
      net.Silent n m → Through net avoid k m e → Through net avoid (k + 1) n e
  | call {j k n start follow stop e : Nat} {rule : Int} :
      net.Invokes n rule start follow → rule ∉ avoid → Through net avoid j start stop →
      net.AtStop stop → Through net avoid k follow e → Through net avoid (j + k + 1) n e

/-- A way from a state to another that consumes nothing and completes its calls, where no call of a
rule is inside of another call of it or of the rules being run. -/
inductive Runs (net : Network) : List Int → Nat → Nat → Prop where
  | here {running : List Int} {n : Nat} : Runs net running n n
  | silent {running : List Int} {n m e : Nat} :
      net.Silent n m → Runs net running m e → Runs net running n e
  | call {running : List Int} {n start follow stop e : Nat} {rule : Int} :
      net.Invokes n rule start follow → rule ∉ running →
      Runs net (rule :: running) start stop → net.AtStop stop → Runs net running follow e →
      Runs net running n e

/-- A call of the rule is met above the level of the state. -/
def Meets (net : Network) (rule : Int) (n : Nat) : Prop :=
  ∀ graph returns base, ∃ m above start follow,
    Steps net graph ⟨n, returns, base⟩ ⟨m, above ++ returns, base⟩ ∧ net.Invokes m rule start follow

/-! ### Ways as steps -/

theorem Through.steps {avoid : List Int} {k n e : Nat} (through : Through net avoid k n e)
    (returns : List Nat) (base : Nat) :
    Steps net graph ⟨n, returns, base⟩ ⟨e, returns, base⟩ := by
  induction through generalizing returns with
  | here => exact .refl
  | silent silent _ ih => exact .head (.silent silent) (ih returns)
  | @call j k n start follow stop e rule call _ _ ends _ inner outer =>
      have enter : Steps net graph ⟨n, returns, base⟩ ⟨stop, follow :: returns, base⟩ :=
        .head (.call call) (inner (follow :: returns))
      exact enter.trans (.head (.back ends) (outer returns))

theorem Through.trans {avoid : List Int} {j k n m e : Nat} (first : Through net avoid j n m)
    (second : Through net avoid k m e) : Through net avoid (j + k) n e := by
  induction first with
  | here => simpa using second
  | silent silent _ ih => simpa [Nat.add_right_comm] using Through.silent silent (ih second)
  | @call i j n start follow stop m rule call free inner ends _ _ ih =>
      have whole := Through.call call free inner ends (ih second)
      have size : i + (j + k) + 1 = i + j + 1 + k := by omega
      exact size ▸ whole

theorem Meets.of_invokes {rule : Int} {n start follow : Nat} (call : net.Invokes n rule start follow) :
    Meets net rule n :=
  fun _ _ _ => ⟨n, [], start, follow, .refl, call⟩

theorem Meets.of_silent {rule : Int} {n m : Nat} (silent : net.Silent n m)
    (meets : Meets net rule m) : Meets net rule n := by
  intro graph returns base
  obtain ⟨m', above, start, follow, steps, call⟩ := meets graph returns base
  exact ⟨m', above, start, follow, .head (.silent silent) steps, call⟩

/-- A call met inside of a call. -/
theorem Meets.of_call {rule other : Int} {n start follow : Nat}
    (call : net.Invokes n other start follow) (meets : Meets net rule start) : Meets net rule n := by
  intro graph returns base
  obtain ⟨m, above, start', follow', steps, call'⟩ := meets graph (follow :: returns) base
  refine ⟨m, above ++ [follow], start', follow', .head (.call call) ?_, call'⟩
  simpa using steps

/-- A call met on the way goes unchanged before it. -/
theorem Meets.of_through {rule : Int} {avoid : List Int} {k n m : Nat}
    (through : Through net avoid k n m) (meets : Meets net rule m) : Meets net rule n := by
  intro graph returns base
  obtain ⟨m', above, start, follow, steps, call⟩ := meets graph returns base
  exact ⟨m', above, start, follow, (through.steps returns base).trans steps, call⟩

/-! ### Taking out inner calls -/

/-- A way either does not call a rule, or a shorter way through this rule is part of it. -/
theorem Through.avoid_or {avoid : List Int} {k n e : Nat} (rule : Int)
    (through : Through net avoid k n e) :
    Through net (rule :: avoid) k n e ∨
      (Meets net rule n ∧ ∃ m start follow j stop, net.Invokes m rule start follow ∧ j < k ∧
        Through net avoid j start stop ∧ net.AtStop stop) := by
  induction through with
  | here => exact .inl .here
  | silent silent _ ih =>
      rcases ih with without | ⟨meets, m, start, follow, j, stop, call, less, inner, ends⟩
      · exact .inl (.silent silent without)
      · exact .inr ⟨meets.of_silent silent, m, start, follow, j, stop, call, by omega, inner, ends⟩
  | @call j k n start follow stop e called call free inner ends outer ihInner ihOuter =>
      by_cases same : called = rule
      · subst same
        exact .inr ⟨.of_invokes call, n, start, follow, j, stop, call, by omega, inner, ends⟩
      · rcases ihInner with without | ⟨meets, m, s, f, i, x, call', less, inner', ends'⟩
        · rcases ihOuter with rest | ⟨meets, m, s, f, i, x, call', less, inner', ends'⟩
          · refine .inl (.call call ?_ without ends rest)
            simp [same, free]
          · have before : Through net avoid (j + 0 + 1) n follow := .call call free inner ends .here
            exact .inr ⟨meets.of_through before, m, s, f, i, x, call', by omega, inner', ends'⟩
        · exact .inr ⟨meets.of_call call, m, s, f, i, x, call', by omega, inner', ends'⟩

/-- A way through a rule can be replaced by one that does not call the rule. -/
theorem Through.shorten (closed : net.RuleClosed) {avoid : List Int} {rule : Int} {start stop k : Nat}
    (starts : net.startOf? rule = some start) (through : Through net avoid k start stop)
    (ends : net.AtStop stop) :
    ∃ j stop', j ≤ k ∧ Through net (rule :: avoid) j start stop' ∧ net.AtStop stop' := by
  induction k using Nat.strongRecOn generalizing stop with
  | ind k ih =>
      rcases through.avoid_or rule with without | ⟨-, m, start', follow, j, x, call, less, inner, ends'⟩
      · exact ⟨k, stop, Nat.le_refl k, without, ends⟩
      · have same : start = start' :=
          Option.some.inj (starts.symm.trans (closed.startOf?_of_invokes call))
        subst same
        obtain ⟨i, stop', le, shorter, ends''⟩ := ih j less inner ends'
        exact ⟨i, stop', by omega, shorter, ends''⟩

/-- Every way can be gone without calling a rule inside of itself. -/
theorem Through.runs (closed : net.RuleClosed) {avoid : List Int} {k n e : Nat}
    (through : Through net avoid k n e) : Runs net avoid n e := by
  induction k using Nat.strongRecOn generalizing avoid n e with
  | ind k ih =>
      cases through with
      | here => exact .here
      | silent silent rest => exact .silent silent (ih _ (by omega) rest)
      | call call free inner ends outer =>
          obtain ⟨i, stop, le, shorter, ends'⟩ :=
            inner.shorten closed (closed.startOf?_of_invokes call) ends
          exact .call call free (ih i (by omega) shorter) ends' (ih _ (by omega) outer)

/-! ### A walk goes these ways -/

variable {ground : Ground}

theorem Free.move_silent (free : Free ground) {n m : Nat} {stack : CallStack}
    (silent : ground.net.Silent n m) : Moves ground ⟨n, stack⟩ ⟨m, stack⟩ := by
  obtain ⟨s, t, hs, kind, mem, quiet, rfl⟩ := silent
  obtain ⟨i, ht⟩ := List.mem_iff_getElem?.mp mem
  refine .cross hs kind (free.going n stack) ht (.pass ?_)
  simp [LookaheadOptions.passes, quiet, free.see]

theorem Free.move_call (free : Free ground) {n start follow : Nat} {rule : Int} {stack : CallStack}
    (call : ground.net.Invokes n rule start follow) (idle : rule ∉ stack.rules) :
    ∃ f : Frame, f.rule = rule ∧ f.returnTo = follow ∧
      Moves ground ⟨n, stack⟩ ⟨start, stack.enter f⟩ := by
  obtain ⟨s, t, level, hs, kind, mem, label, rfl⟩ := call
  obtain ⟨i, ht⟩ := List.mem_iff_getElem?.mp mem
  exact ⟨⟨n, i, rule, follow⟩, rfl, rfl, .cross hs kind (free.going n stack) ht (.call label idle)⟩

theorem Free.move_back (free : Free ground) {n base : Nat} {f : Frame} {calls : List Frame}
    (ends : ground.net.AtStop n) :
    Moves ground ⟨n, f :: calls, base⟩ ⟨f.returnTo, calls, base⟩ := by
  obtain ⟨s, hs, kind⟩ := ends
  have mem : .resume f.returnTo ⟨calls, base⟩ ∈
      (⟨f :: calls, base⟩ : CallStack).returns ground.graph :=
    CallStack.resume_mem_returns_iff.mpr .call
  exact .back hs kind (free.going n _) mem

theorem Free.move_drop (free : Free ground) {n base caller : Nat} {r : Int}
    (ends : ground.net.AtStop n) (mem : .call r caller ∈ ground.graph.entries base) :
    Moves ground ⟨n, [], base⟩ ⟨r.toNat, [], caller⟩ := by
  obtain ⟨s, hs, kind⟩ := ends
  exact .back hs kind (free.going n _) (CallStack.resume_mem_returns_iff.mpr (.drop mem))

/-- A walk goes every way that calls no rule inside of itself. -/
theorem Runs.reach (free : Free ground) {running : List Int} {n e : Nat}
    (runs : Runs ground.net running n e) {stack : CallStack}
    (within : ∀ r ∈ stack.rules, r ∈ running) : Reach ground ⟨n, stack⟩ ⟨e, stack⟩ := by
  induction runs generalizing stack with
  | here => exact .refl
  | silent silent _ ih => exact .head (free.move_silent silent) (ih within)
  | @call running n start follow stop e rule call fresh _ ends _ inner outer =>
      have idle : rule ∉ stack.rules := fun h => fresh (within rule h)
      obtain ⟨f, rfl, rfl, enter⟩ := free.move_call call idle
      have within' : ∀ r ∈ (stack.enter f).rules, r ∈ f.rule :: running := by
        intro r hr
        rcases List.mem_cons.mp hr with rfl | hr
        · exact List.mem_cons_self
        · exact List.mem_cons_of_mem _ (within r hr)
      exact .head enter ((inner within').trans (.head (free.move_back ends) (outer within)))

/-! ### Contexts are left level by level -/

/-- A configuration from which a goal is reached by ways that leave one level of the context after
another. -/
inductive Unwinds (net : Network) (graph : StackGraph) (goal : Config → Prop) : Config → Prop where
  | now {c : Config} : goal c → Unwinds net graph goal c
  | back {k n stop follow base : Nat} {returns : List Nat} :
      Through net [] k n stop → net.AtStop stop → Unwinds net graph goal ⟨follow, returns, base⟩ →
      Unwinds net graph goal ⟨n, follow :: returns, base⟩
  | drop {k n stop base caller : Nat} {r : Int} :
      Through net [] k n stop → net.AtStop stop → .call r caller ∈ graph.entries base →
      Unwinds net graph goal ⟨r.toNat, [], caller⟩ → Unwinds net graph goal ⟨n, [], base⟩

/-- A goal that is also reached from before a way, and from before a call it is reached inside of. -/
structure Inherited (net : Network) (goal : Config → Prop) : Prop where
  through : ∀ {k n m : Nat} {returns : List Nat} {base : Nat},
    Through net [] k n m → goal ⟨m, returns, base⟩ → goal ⟨n, returns, base⟩
  call : ∀ {n start follow : Nat} {rule : Int} {returns : List Nat} {base : Nat},
    net.Invokes n rule start follow → goal ⟨start, follow :: returns, base⟩ →
    goal ⟨n, returns, base⟩

variable {goal : Config → Prop}

theorem Unwinds.through (inherited : Inherited net goal) {k n m base : Nat} {returns : List Nat}
    (way : Through net [] k n m) (unwinds : Unwinds net graph goal ⟨m, returns, base⟩) :
    Unwinds net graph goal ⟨n, returns, base⟩ := by
  cases unwinds with
  | now reached => exact .now (inherited.through way reached)
  | back rest ends unwinds => exact .back (way.trans rest) ends unwinds
  | drop rest ends mem unwinds => exact .drop (way.trans rest) ends mem unwinds

theorem Unwinds.step (inherited : Inherited net goal) {c d : Config} (step : Step net graph c d)
    (unwinds : Unwinds net graph goal d) : Unwinds net graph goal c := by
  cases step with
  | silent silent => exact unwinds.through inherited (.silent silent .here)
  | call call =>
      cases unwinds with
      | now reached => exact .now (inherited.call call reached)
      | back inner ends unwinds =>
          exact unwinds.through inherited (.call call List.not_mem_nil inner ends .here)
  | back ends => exact .back .here ends unwinds
  | drop ends mem => exact .drop .here ends mem unwinds

/-- Steps to a goal leave one level of the context after another. -/
theorem unwinds_of_steps (inherited : Inherited net goal) {c d : Config} (steps : Steps net graph c d)
    (reached : goal d) : Unwinds net graph goal c := by
  induction steps using Relation.ReflTransGen.head_induction_on with
  | refl => exact .now reached
  | head step _ ih => exact ih.step inherited step

/-- A walk leaves the same levels and is then in the state from which the goal is reached. -/
theorem Unwinds.reach (closed : ground.net.RuleClosed) (free : Free ground) {n base : Nat}
    (unwinds : Unwinds ground.net ground.graph goal ⟨n, [], base⟩) :
    ∃ m base', Reach ground ⟨n, [], base⟩ ⟨m, [], base'⟩ ∧ goal ⟨m, [], base'⟩ := by
  generalize hc : (⟨n, [], base⟩ : Config) = c at unwinds
  induction unwinds generalizing n base with
  | now reached =>
      subst hc
      exact ⟨n, base, .refl, reached⟩
  | back => cases hc
  | @drop k n' stop base' caller r way ends mem _ ih =>
      cases hc
      obtain ⟨m, last, rest, reached⟩ := ih rfl
      have across : Reach ground ⟨n', [], base'⟩ ⟨stop, [], base'⟩ :=
        (way.runs closed).reach free (by simp)
      exact ⟨m, last, across.trans (.head (free.move_drop ends mem) rest), reached⟩

end Lookahead

end GrammarNet
