import GrammarNet.Proofs.Drafts

/-!
Every operation keeps a draft tidy (`Drafted.tidy`).

For an operation that makes a fragment it has to be shown where it adds edges (`Draft.Makes`) and
that the fragment spells its expression. The second follows from the laws for settled pieces, since
the edges of a state at which edges are added are the added ones (`Extended.edges`).
-/

namespace GrammarNet

open Build Network Computability

namespace Draft

variable {d : Draft} {used rest : List Part} {p : Part} {net' : Network} {fresh : Nat}
  {added : List (Nat × Transition)} {n z : Nat} {e : Expr}

theorem rule_congr {net net' : Network} (same : net'.rules = net.rules) (r : Int) :
    net'.rule r = net.rule r := by
  unfold Network.rule
  rw [same]

/-- The ends of what is used and of what is left. -/
theorem Tidy.nodup (tidy : d.Tidy) (waiting : d.waiting.Perm (used ++ rest)) :
    (used.map (·.fragment.exit) ++ rest.map (·.fragment.exit)).Nodup := by
  rw [← List.map_append]
  exact (waiting.map _).nodup_iff.mp tidy.apart

/-- A draft stays tidy when edges are added at open states and what is new spells its expression. -/
theorem Tidy.extend (tidy : d.Tidy) {d' : Draft} (ext : Extended d d' added)
    (parts : ∀ q ∈ d'.made,
      q ∈ d.made ∨ d'.Spells q.fragment.entry q.fragment.exit q.expr)
    (bodies : ∀ r e, d'.body? r = some e → d.body? r = some e ∨
      ∃ boundary, d'.net.rule r = .ok boundary ∧ d'.Spells boundary.start boundary.stop e)
    (kept : ∀ r boundary, d.net.rule r = .ok boundary → d'.net.rule r = .ok boundary)
    (apart : (d'.waiting.map fun q => q.fragment.exit).Nodup)
    (inner : ∀ q ∈ d'.waiting, ∀ r boundary, d'.net.rule r = .ok boundary →
      q.fragment.exit ≠ boundary.start ∧ q.fragment.exit ≠ boundary.stop) : d'.Tidy where
  idle := fun _ opened => ext.idle tidy opened
  parts := fun q mem => (parts q mem).elim (fun old => ext.spells (tidy.parts q old)) id
  bodies := by
    intro r e given
    rcases bodies r e given with old | new
    · obtain ⟨boundary, found, body⟩ := tidy.bodies r e old
      exact ⟨boundary, kept r boundary found, ext.spells body⟩
    · exact new
  apart := apart
  inner := inner

/-! ### Making a fragment -/

/-- The draft with one more fragment, which waits with the rest. -/
def make (d : Draft) (p : Part) (rest : List Part) (net' : Network) : Draft :=
  { d with net := net', made := p :: d.made, waiting := p :: rest }

/-- A new state, or the end of a part that is used. -/
def Site (d : Draft) (used : List Part) (fresh n : Nat) : Prop :=
  d.net.states.size ≤ n ∧ n < d.net.states.size + fresh ∨ ∃ q ∈ used, q.fragment.exit = n

/-- A fragment is made of others: it ends at a site, and edges are added at other sites. -/
structure Makes (d : Draft) (used rest : List Part) (p : Part) (net' : Network) (fresh : Nat)
    (added : List (Nat × Transition)) : Prop where
  waiting : d.waiting.Perm (used ++ rest)
  grown : Grown d.net net' fresh added
  exit : d.Site used fresh p.fragment.exit
  sources : ∀ e ∈ added, e.1 ≠ p.fragment.exit ∧ d.Site used fresh e.1

namespace Makes

theorem waits (makes : d.Makes used rest p net' fresh added) {q : Part} (mem : q ∈ used) :
    q ∈ d.waiting :=
  makes.waiting.mem_iff.mpr (List.mem_append_left rest mem)

theorem remains (makes : d.Makes used rest p net' fresh added) {q : Part} (mem : q ∈ rest) :
    q ∈ d.waiting :=
  makes.waiting.mem_iff.mpr (List.mem_append_right used mem)

/-- A site is no boundary of a rule and no end of what is left. -/
theorem apart (makes : d.Makes used rest p net' fresh added) (drafted : Drafted d) (tidy : d.Tidy)
    (site : d.Site used fresh n) :
    d.Open n ∧ n < d.net.states.size + fresh ∧ (∀ q ∈ rest, q.fragment.exit ≠ n) ∧
      ∀ r boundary, d.net.rule r = .ok boundary → n ≠ boundary.start ∧ n ≠ boundary.stop := by
  rcases site with ⟨new, less⟩ | ⟨q, mem, rfl⟩
  · refine ⟨.inl new, less, fun q' mem' here => ?_, fun r boundary found => ?_⟩
    · have := drafted.exit_lt (makes.remains mem')
      omega
    · have := drafted.bounds_lt found
      omega
  · refine ⟨.inr (.inl ⟨q, makes.waits mem, rfl⟩), ?_, fun q' mem' here => ?_,
      tidy.inner q (makes.waits mem)⟩
    · have := drafted.exit_lt (makes.waits mem)
      omega
    · exact (List.nodup_append.mp (tidy.nodup makes.waiting)).2.2 _ (List.mem_map_of_mem mem) _
        (List.mem_map_of_mem mem') here.symm

theorem size (makes : d.Makes used rest p net' fresh added) :
    (d.make p rest net').net.states.size = d.net.states.size + fresh :=
  makes.grown.size

theorem boundary_iff (makes : d.Makes used rest p net' fresh added) :
    (d.make p rest net').Boundary n ↔ d.Boundary n := by
  unfold Boundary make
  simp only [rule_congr makes.grown.rules]

theorem extended (makes : d.Makes used rest p net' fresh added) (drafted : Drafted d)
    (tidy : d.Tidy) : Extended d (d.make p rest net') added where
  fewer := by
    rintro n (new | ⟨q, mem, rfl⟩ | boundary)
    · rw [makes.size] at new
      exact .inl (by omega)
    · rcases List.mem_cons.mp mem with rfl | mem
      · exact (makes.apart drafted tidy makes.exit).1
      · exact .inr (.inl ⟨q, makes.remains mem, rfl⟩)
    · exact .inr (.inr (makes.boundary_iff.mp boundary))
  sources := by
    intro e mem
    obtain ⟨other, site⟩ := makes.sources e mem
    obtain ⟨opened, less, left, inner⟩ := makes.apart drafted tidy site
    refine ⟨opened, ?_⟩
    rintro (new | ⟨q, mem, here⟩ | boundary)
    · rw [makes.size] at new
      omega
    · rcases List.mem_cons.mp mem with rfl | mem
      · exact other here.symm
      · exact left q mem here
    · obtain ⟨r, boundary, found, stop | ⟨start, -⟩⟩ := makes.boundary_iff.mp boundary
      · exact (inner r boundary found).2 stop
      · exact (inner r boundary found).1 start
  ways := makes.grown.ways
  maxSymbol := makes.grown.maxSymbol

theorem tidy (makes : d.Makes used rest p net' fresh added) (drafted : Drafted d) (tidy : d.Tidy)
    (piece : (d.make p rest net').Spells p.fragment.entry p.fragment.exit p.expr) :
    (d.make p rest net').Tidy := by
  obtain ⟨-, -, left, inner⟩ := makes.apart drafted tidy makes.exit
  have same := rule_congr makes.grown.rules
  refine tidy.extend (makes.extended drafted tidy) (fun q mem => ?_) (fun r e given => .inl given)
    (fun r boundary found => (same r).trans found) (List.nodup_cons.mpr ⟨fun mem => ?_, ?_⟩)
    fun q mem r boundary found => ?_
  · rcases List.mem_cons.mp mem with rfl | old
    · exact .inr piece
    · exact .inl old
  · obtain ⟨q, mem, here⟩ := List.mem_map.mp mem
    exact left q mem here
  · exact (List.nodup_append.mp (tidy.nodup makes.waiting)).2.1
  · have found' := (same r).symm.trans found
    rcases List.mem_cons.mp mem with rfl | mem
    · exact inner r boundary found'
    · exact tidy.inner q (makes.remains mem) r boundary found'

end Makes

/-- What becomes of a draft when a fragment is made. -/
theorem apply_of_lays {op : Operation} {f : Fragment} (lays : op.Lays d.net f fresh added)
    (bodied : op.bodied? = none) : ∃ net', Grown d.net net' fresh added ∧
      d.apply op used rest = d.make ⟨op.rule, f, op.expr (used.map Part.expr)⟩ rest net' := by
  obtain ⟨net', grown, made⟩ := lays
  refine ⟨net', grown, ?_⟩
  simp only [apply, made, bodied]
  rfl

/-- A draft stays tidy when a fragment is made, provided that it spells its expression. -/
theorem Tidy.of_lays (tidy : d.Tidy) (drafted : Drafted d) {op : Operation} {f : Fragment}
    (lays : op.Lays d.net f fresh added) (bodied : op.bodied? = none)
    (waiting : d.waiting.Perm (used ++ rest))
    (exit : d.Site used fresh f.exit)
    (sources : ∀ e ∈ added, e.1 ≠ f.exit ∧ d.Site used fresh e.1)
    (piece : ∀ d', Extended d d' added → d'.Open f.exit →
      d'.Spells f.entry f.exit (op.expr (used.map Part.expr))) :
    (d.apply op used rest).Tidy := by
  obtain ⟨net', grown, applied⟩ := apply_of_lays lays bodied
  have makes : d.Makes used rest ⟨op.rule, f, op.expr (used.map Part.expr)⟩ net' fresh added :=
    { waiting, grown, exit, sources }
  rw [applied]
  refine makes.tidy drafted tidy (piece _ (makes.extended drafted tidy) ?_)
  exact .inr (.inl ⟨_, List.mem_cons_self, rfl⟩)

/-! ### The operations that make a fragment -/

/-- Pieces one after the other, when each of them but the last has its joint. -/
theorem spells_sequence (pieces : ∀ q ∈ p :: used, d.Spells q.fragment.entry q.fragment.exit q.expr)
    (joined : ∀ e ∈ Fragment.joints p.fragment (used.map Part.fragment),
      d.net.ways e.1 = [e.2] ∧ ¬d.Open e.1)
    (last : d.Open ((used.map Part.fragment).getLastD p.fragment).exit) :
    d.Spells p.fragment.entry ((used.map Part.fragment).getLastD p.fragment).exit
      (.sequence ((p :: used).map Part.expr)) := by
  induction used generalizing p with
  | nil => simpa [Spells, Expr.words] using pieces
  | cons q used ih =>
      rw [List.forall_mem_cons] at pieces
      rw [List.map_cons, Fragment.joints, List.forall_mem_cons] at joined
      rw [List.map_cons, List.getLastD_cons] at last ⊢
      have chain := Settled.chain pieces.1 (ih pieces.2 joined.2 last) joined.1.1 joined.1.2 last
      simpa [Spells, Expr.words] using chain

/-- Pieces that begin behind one state and lead to another. -/
theorem spells_alternatives
    (pieces : ∀ q ∈ used, d.Spells q.fragment.entry q.fragment.exit q.expr)
    (entry : d.net.ways n = used.map fun q => .epsilon q.fragment.entry)
    (exits : ∀ q ∈ used, d.net.ways q.fragment.exit = [.epsilon z] ∧ ¬d.Open q.fragment.exit)
    (inner : ¬d.Open n) (last : d.Open z) : d.Spells n z (.alternatives (used.map Part.expr)) := by
  have ways : ∀ b ∈ used.map fun q =>
      (q.fragment.entry, fun env => q.expr.words d.net.maxSymbol env),
      Settled d.net.ways d.net.maxSymbol d.Open b.1 z b.2 := by
    rw [List.forall_mem_map]
    exact fun q mem => Settled.leave (pieces q mem) (exits q mem).1 (exits q mem).2 last
  have choice := Settled.choice ways (by rw [entry, List.map_map]; rfl) inner last
  simpa [Spells, Expr.words, Function.comp_def] using choice

section Steps

variable (tidy : d.Tidy) (drafted : Drafted d) (r : Int)

include tidy drafted

/-- An operation that makes two states and an edge between them. -/
theorem tidy_edge {op : Operation} {t : Transition} (waiting : d.waiting.Perm ([] ++ rest))
    (lays : op.Lays d.net ⟨d.net.states.size, d.net.states.size + 1⟩ 2 [(d.net.states.size, t)])
    (bodied : op.bodied? = none) (next : t.next = d.net.states.size + 1)
    (words : ∀ max, t.label.words max = fun env => (op.expr []).words max env) :
    (d.apply op [] rest).Tidy := by
  refine tidy.of_lays drafted lays bodied waiting (.inl (by simp)) (by simp [Site])
    fun d' ext last => ?_
  have edge : d'.net.ways d.net.states.size = [t] := by
    rw [ext.edges tidy (by simp)]
    simp
  rw [Spells, List.map_nil, ← words]
  exact Settled.edge edge (ext.closed (by simp)) (by simp) next

theorem tidy_element (waiting : d.waiting.Perm ([] ++ rest)) (label : Label)
    (plain : label.follow? = none) : (d.apply (.element r label plain) [] rest).Tidy := by
  refine tidy_edge tidy drafted waiting (Operation.lays_element plain) rfl ?_ fun max => ?_
  · simp [Transition.next, plain]
  · funext env
    rw [Operation.expr, Expr.words]

theorem tidy_ruleRef (waiting : d.waiting.Perm ([] ++ rest)) (callee precedence : Int)
    {boundary : Rule} (found : d.net.rule callee = .ok boundary) :
    (d.apply (.ruleRef r callee precedence) [] rest).Tidy := by
  refine tidy_edge tidy drafted waiting (Operation.lays_ruleRef drafted.wired found) rfl rfl
    fun max => ?_
  funext env
  rw [Operation.expr, Expr.words]
  rfl

theorem tidy_optional (waiting : d.waiting.Perm ([p] ++ rest)) :
    (d.apply (.optional r p.fragment) [p] rest).Tidy := by
  have waits : p ∈ d.waiting := waiting.mem_iff.mpr (by simp)
  have less := drafted.exit_lt waits
  refine tidy.of_lays drafted (Operation.lays_optional (drafted.going waits)) rfl waiting
    (.inl (by simp)) (by simp [Fragment.optionalEdges, Site]; omega) fun d' ext last => ?_
  have body := ext.spells (tidy.parts p (drafted.mem_made p waits))
  have entry : d'.net.ways d.net.states.size =
      [.epsilon p.fragment.entry, .epsilon (d.net.states.size + 1)] := by
    rw [ext.edges tidy (by simp [Fragment.optionalEdges])]
    simp [Fragment.optionalEdges, less.ne]
  have exit : d'.net.ways p.fragment.exit = [.epsilon (d.net.states.size + 1)] := by
    rw [ext.edges tidy (by simp [Fragment.optionalEdges])]
    simp [Fragment.optionalEdges, less.ne']
  have through := Settled.leave body exit (ext.closed (by simp [Fragment.optionalEdges])) last
  have ways : ∀ b ∈ [(p.fragment.entry, fun env => p.expr.words d'.net.maxSymbol env),
      (d.net.states.size + 1, fun _ => 1)],
      Settled d'.net.ways d'.net.maxSymbol d'.Open b.1 (d.net.states.size + 1) b.2 :=
    List.forall_mem_cons.mpr ⟨through, List.forall_mem_singleton.mpr .here⟩
  have choice := Settled.choice ways entry (ext.closed (by simp [Fragment.optionalEdges])) last
  simpa [Spells, Operation.expr, Expr.words] using choice

theorem tidy_star (waiting : d.waiting.Perm ([p] ++ rest)) :
    (d.apply (.star r p.fragment) [p] rest).Tidy := by
  have waits : p ∈ d.waiting := waiting.mem_iff.mpr (by simp)
  have less := drafted.exit_lt waits
  refine tidy.of_lays drafted (Operation.lays_star (drafted.going waits)) rfl waiting
    (.inl (by simp)) (by simp [Fragment.starEdges, Site]; omega) fun d' ext last => ?_
  have body := ext.before (tidy.parts p (drafted.mem_made p waits))
  have apart : ∀ i, p.fragment.exit ≠ d.net.states.size + i := by omega
  obtain ⟨entry, start, stop, close, back⟩ :
      d'.net.ways d.net.states.size =
        [.epsilon (d.net.states.size + 1), .epsilon (d.net.states.size + 4)] ∧
      d'.net.ways (d.net.states.size + 1) = [.epsilon p.fragment.entry] ∧
      d'.net.ways p.fragment.exit = [.epsilon (d.net.states.size + 2)] ∧
      d'.net.ways (d.net.states.size + 2) = [.epsilon (d.net.states.size + 3)] ∧
      d'.net.ways (d.net.states.size + 3) = [.epsilon d.net.states.size] := by
    refine ⟨?_, ?_, ?_, ?_, ?_⟩ <;> rw [ext.edges tidy (by simp [Fragment.starEdges])] <;>
      simp [Fragment.starEdges, apart, less.ne, less.ne', fun i => (apart i).symm]
  simp only [Spells, Operation.expr, List.map_cons, Expr.words]
  refine Settled.star body ext.fewer entry start stop close back (ext.idle tidy last) ?_ last
    (.inl (by omega)) (by simp; omega)
  exact fun m mem => ext.closed (by simp [Fragment.starEdges] at mem ⊢; omega)

theorem tidy_plus (waiting : d.waiting.Perm ([p] ++ rest)) :
    (d.apply (.plus r p.fragment) [p] rest).Tidy := by
  have waits : p ∈ d.waiting := waiting.mem_iff.mpr (by simp)
  have less := drafted.exit_lt waits
  refine tidy.of_lays drafted (Operation.lays_plus (drafted.going waits)) rfl waiting
    (.inl (by simp)) (by simp [Fragment.plusEdges, Site]; omega) fun d' ext last => ?_
  have body := ext.before (tidy.parts p (drafted.mem_made p waits))
  have apart : ∀ i, p.fragment.exit ≠ d.net.states.size + i := by omega
  obtain ⟨entry, stop, close, back⟩ :
      d'.net.ways d.net.states.size = [.epsilon p.fragment.entry] ∧
      d'.net.ways p.fragment.exit = [.epsilon (d.net.states.size + 1)] ∧
      d'.net.ways (d.net.states.size + 1) = [.epsilon (d.net.states.size + 2)] ∧
      d'.net.ways (d.net.states.size + 2) =
        [.epsilon d.net.states.size, .epsilon (d.net.states.size + 3)] := by
    refine ⟨?_, ?_, ?_, ?_⟩ <;> rw [ext.edges tidy (by simp [Fragment.plusEdges])] <;>
      simp [Fragment.plusEdges, apart, less.ne, less.ne', fun i => (apart i).symm]
  simp only [Spells, Operation.expr, List.map_cons, Expr.words]
  refine Settled.plus body ext.fewer entry stop close back (ext.idle tidy last) ?_ last
    (.inl (by omega)) (by simp; omega)
  exact fun m mem => ext.closed (by simp [Fragment.plusEdges] at mem ⊢; omega)

theorem tidy_sequence (waiting : d.waiting.Perm (p :: used ++ rest)) :
    (d.apply (.sequence r ((p :: used).map Part.fragment)) (p :: used) rest).Tidy := by
  have waits : ∀ q ∈ p :: used, q ∈ d.waiting := fun q mem =>
    waiting.mem_iff.mpr (List.mem_append_left rest mem)
  have going : ∀ f ∈ p.fragment :: used.map Part.fragment, d.net.Going f.exit := by
    rw [← List.map_cons, List.forall_mem_map]
    exact fun q mem => drafted.going (waits q mem)
  -- the joints begin at the ends of what is used, but for the last, at which the sequence ends
  have exits : (Fragment.joints p.fragment (used.map Part.fragment)).map Prod.fst ++
      [((used.map Part.fragment).getLastD p.fragment).exit] =
        (p :: used).map (·.fragment.exit) := by
    rw [Fragment.sources_joints, ← List.map_cons, List.map_map]
    rfl
  obtain ⟨distinct, -, apart⟩ := List.nodup_append.mp
    (exits ▸ (List.nodup_append.mp (tidy.nodup waiting)).1)
  have ended : ∀ n ∈ (Fragment.joints p.fragment (used.map Part.fragment)).map Prod.fst ++
      [((used.map Part.fragment).getLastD p.fragment).exit],
      ∃ q ∈ p :: used, q.fragment.exit = n := by
    rw [exits]
    exact fun n mem => List.mem_map.mp mem
  refine tidy.of_lays drafted (Operation.lays_sequence going) rfl waiting (.inr (ended _ (by simp)))
    (fun e mem => ⟨?_, .inr (ended _ (List.mem_append_left _ (List.mem_map_of_mem mem)))⟩)
    fun d' ext last => ?_
  · exact apart _ (List.mem_map_of_mem mem) _ (List.mem_singleton_self _)
  · refine spells_sequence (fun q mem => ?_) (fun e mem => ⟨?_, ?_⟩) last
    · exact ext.spells (tidy.parts q (drafted.mem_made q (waits q mem)))
    · rw [ext.edges tidy (List.mem_map_of_mem mem), edgesFrom_of_nodup distinct mem]
    · exact ext.closed (List.mem_map_of_mem mem)

theorem tidy_alternative (waiting : d.waiting.Perm ([p] ++ rest)) :
    (d.apply (.alternatives r [p.fragment]) [p] rest).Tidy := by
  have waits : p ∈ d.waiting := waiting.mem_iff.mpr (by simp)
  refine tidy.of_lays drafted (Operation.lays_alternative p.fragment) rfl waiting
    (.inr ⟨p, List.mem_singleton_self p, rfl⟩) (by simp) fun d' ext last => ?_
  simpa [Spells, Operation.expr, Expr.words] using
    ext.spells (tidy.parts p (drafted.mem_made p waits))

theorem tidy_alternatives {q : Part} (waiting : d.waiting.Perm (p :: q :: used ++ rest)) :
    (d.apply (.alternatives r ((p :: q :: used).map Part.fragment)) (p :: q :: used)
      rest).Tidy := by
  have waits : ∀ s ∈ p :: q :: used, s ∈ d.waiting := fun s mem =>
    waiting.mem_iff.mpr (List.mem_append_left rest mem)
  have going : ∀ f ∈ (p :: q :: used).map Part.fragment, d.net.Going f.exit := by
    rw [List.forall_mem_map]
    exact fun s mem => drafted.going (waits s mem)
  have old : ∀ f ∈ (p :: q :: used).map Part.fragment, f.exit < d.net.states.size := by
    rw [List.forall_mem_map]
    exact fun s mem => drafted.exit_lt (waits s mem)
  have distinct : (((p :: q :: used).map Part.fragment).map Fragment.exit).Nodup := by
    rw [List.map_map]
    exact (List.nodup_append.mp (tidy.nodup waiting)).1
  refine tidy.of_lays drafted (Operation.lays_alternatives going) rfl waiting (.inl (by simp))
    (fun e mem => ?_) fun d' ext last => ?_
  · rcases Fragment.source_of_branch mem with here | ⟨f, part, here⟩
    · simp [here, Site]
    · obtain ⟨s, mem, rfl⟩ : ∃ s ∈ p :: q :: used, s.fragment = f := List.mem_map.mp part
      have less := old s.fragment part
      exact ⟨by simp; omega, .inr ⟨s, mem, here⟩⟩
  · have apart : ∀ f ∈ (p :: q :: used).map Part.fragment, f.exit ≠ d.net.states.size :=
      fun f part => (old f part).ne
    refine spells_alternatives (fun s mem => ?_) ?_ (fun s mem => ?_)
      (ext.closed (List.mem_cons_self ..)) last
    · exact ext.spells (tidy.parts s (drafted.mem_made s (waits s mem)))
    · refine (ext.edges tidy (List.mem_cons_self ..)).trans ?_
      refine (Fragment.edgesFrom_branches_entry apart).trans ?_
      rw [List.map_map]
      rfl
    · have part : s.fragment ∈ (p :: q :: used).map Part.fragment := List.mem_map_of_mem mem
      have source := Fragment.exit_mem_branches d.net.states.size (d.net.states.size + 1) part
      refine ⟨(ext.edges tidy source).trans ?_, ext.closed source⟩
      exact Fragment.edgesFrom_branches_exit distinct apart part

end Steps

/-! ### Bodies of rules -/

/-- The draft in which a rule gets its body. -/
def settle (d : Draft) (r : Int) (boundary : Rule) (p : Part) (rest : List Part) : Draft :=
  { net := d.net.addEdges (Fragment.bodyEdges boundary p.fragment)
    made := d.made
    waiting := rest
    body? := fun r' => if r = r' then some p.expr else d.body? r' }

theorem apply_setRuleBody {r : Int} {boundary : Rule} (found : d.net.rule r = .ok boundary) :
    d.apply (.setRuleBody r p.fragment) [p] rest = d.settle r boundary p rest := by
  have made : exec (Operation.setRuleBody r p.fragment).run d.net =
      (.ok [], d.net.addEdges (Fragment.bodyEdges boundary p.fragment)) := by
    simp only [Operation.run, exec_bind, Fragment.exec_setRuleBody found, exec_pure]
  simp [apply, made, settle, Operation.bodied?]

section Settle

variable (tidy : d.Tidy) (drafted : Drafted d) (waiting : d.waiting.Perm ([p] ++ rest)) {r : Int}
  (free : d.body? r = none) {boundary : Rule} (found : d.net.rule r = .ok boundary)

include drafted waiting found

theorem grown_settle :
    Grown d.net (d.settle r boundary p rest).net 0 (Fragment.bodyEdges boundary p.fragment) := by
  have waits : p ∈ d.waiting := waiting.mem_iff.mpr (by simp)
  obtain ⟨s, hs, kind, -⟩ := (Fragment.bounds_of_rule drafted.wired found).1.start
  have start : d.net.Going boundary.start := ⟨s, hs, by simp [kind]⟩
  exact grown_addEdges (by simp [Fragment.bodyEdges, start, drafted.going waits])

theorem open_settle (opened : (d.settle r boundary p rest).Open n) :
    d.net.states.size ≤ n ∨ (∃ q ∈ rest, q.fragment.exit = n) ∨
      ∃ r' boundary', d.net.rule r' = .ok boundary' ∧
        (n = boundary'.stop ∨ n = boundary'.start ∧ r ≠ r' ∧ d.body? r' = none) := by
  have grown := grown_settle drafted waiting found
  rcases opened with new | waits | ⟨r', boundary', found', here⟩
  · rw [grown.size] at new
    exact .inl new
  · exact .inr (.inl waits)
  · refine .inr (.inr ⟨r', boundary', (rule_congr grown.rules r').symm.trans found', ?_⟩)
    refine here.imp_right fun ⟨start, bodiless⟩ => ⟨start, ?_⟩
    by_cases same : r = r'
    · simp [settle, same] at bodiless
    · exact ⟨same, by simpa [settle, same] using bodiless⟩

include tidy free

theorem extended_settle :
    Extended d (d.settle r boundary p rest) (Fragment.bodyEdges boundary p.fragment) := by
  have grown := grown_settle drafted waiting found
  have waits : p ∈ d.waiting := waiting.mem_iff.mpr (by simp)
  have remains : ∀ q ∈ rest, q ∈ d.waiting := fun q mem => waiting.mem_iff.mpr (by simp [mem])
  refine ⟨fun n opened => ?_, ?_, grown.ways, grown.maxSymbol⟩
  · rcases open_settle drafted waiting found opened with new | ⟨q, mem, rfl⟩ | bound
    · exact .inl new
    · exact .inr (.inl ⟨q, remains q mem, rfl⟩)
    · obtain ⟨r', boundary', found', here⟩ := bound
      exact .inr (.inr ⟨r', boundary', found', here.imp_right fun start => ⟨start.1, start.2.2⟩⟩)
  · rw [Fragment.bodyEdges, List.forall_mem_cons, List.forall_mem_singleton]
    refine ⟨⟨.inr (.inr ⟨r, boundary, found, .inr ⟨rfl, free⟩⟩), fun opened => ?_⟩,
      ⟨.inr (.inl ⟨p, waits, rfl⟩), fun opened => ?_⟩⟩
    · -- the start of the rule has a body now
      rcases open_settle drafted waiting found opened with new | ⟨q, mem, here⟩ | bound
      · exact absurd (drafted.bounds_lt found).1 (Nat.not_lt_of_le new)
      · exact (tidy.inner q (remains q mem) r boundary found).1 here
      · obtain ⟨r', boundary', found', stop | ⟨start, other, -⟩⟩ := bound
        · exact drafted.start_ne_stop found found' stop
        · exact other (drafted.rule_unique found found' start)
    · -- the body does not wait any more
      rcases open_settle drafted waiting found opened with new | ⟨q, mem, here⟩ | bound
      · exact absurd (drafted.exit_lt waits) (Nat.not_lt_of_le new)
      · exact (List.nodup_append.mp (tidy.nodup waiting)).2.2 _
          (List.mem_map_of_mem (List.mem_singleton_self p)) _ (List.mem_map_of_mem mem) here.symm
      · obtain ⟨r', boundary', found', stop | ⟨start, -⟩⟩ := bound
        · exact (tidy.inner p waits r' boundary' found').2 stop
        · exact (tidy.inner p waits r' boundary' found').1 start

theorem spells_settle :
    (d.settle r boundary p rest).Spells boundary.start boundary.stop p.expr := by
  have ext := extended_settle tidy drafted waiting free found
  have waits : p ∈ d.waiting := waiting.mem_iff.mpr (by simp)
  have last : (d.settle r boundary p rest).Open boundary.stop :=
    .inr (.inr ⟨r, boundary,
      (rule_congr (grown_settle drafted waiting found).rules r).trans found, .inl rfl⟩)
  have apart := (tidy.inner p waits r boundary found).1
  have start : (d.settle r boundary p rest).net.ways boundary.start =
      [.epsilon p.fragment.entry] := by
    rw [ext.edges tidy (by simp [Fragment.bodyEdges])]
    simp [Fragment.bodyEdges, apart]
  have stop : (d.settle r boundary p rest).net.ways p.fragment.exit =
      [.epsilon boundary.stop] := by
    rw [ext.edges tidy (by simp [Fragment.bodyEdges])]
    simp [Fragment.bodyEdges, apart.symm]
  have body := ext.spells (tidy.parts p (drafted.mem_made p waits))
  have through := Settled.leave body stop (ext.closed (by simp [Fragment.bodyEdges])) last
  exact through.enter start (ext.closed (by simp [Fragment.bodyEdges])) last

theorem tidy_settle : (d.settle r boundary p rest).Tidy := by
  have ext := extended_settle tidy drafted waiting free found
  have same := rule_congr (grown_settle drafted waiting found).rules
  refine tidy.extend ext (fun q mem => .inl mem) (fun r' e given => ?_)
    (fun r' boundary' found' => (same r').trans found')
    (List.nodup_append.mp (tidy.nodup waiting)).2.1
    fun q (mem : q ∈ rest) r' boundary' found' => ?_
  · by_cases here : r = r'
    · obtain rfl : p.expr = e := by simpa [settle, here] using given
      subst here
      exact .inr
        ⟨boundary, (same r).trans found, spells_settle tidy drafted waiting free found⟩
    · exact .inl (by simpa [settle, here] using given)
  · exact tidy.inner q (waiting.mem_iff.mpr (by simp [mem])) r' boundary'
      ((same r').symm.trans found')

end Settle

/-! ### Operations that make no fragment -/

/-- A draft stays tidy when new states are made beside the fragments. -/
theorem Tidy.of_kept (tidy : d.Tidy) (drafted : Drafted d) {d' : Draft}
    (made : d'.made = d.made) (waiting : d.waiting.Perm d'.waiting) (bodies : d'.body? = d.body?)
    (size : d'.net.states.size = d.net.states.size + fresh)
    (maxSymbol : d'.net.maxSymbol = d.net.maxSymbol)
    (ways : ∀ n, d'.net.ways n = d.net.ways n ++ edgesFrom added n)
    (kept : ∀ r boundary, d.net.rule r = .ok boundary → d'.net.rule r = .ok boundary)
    (bounds : ∀ r boundary, d'.net.rule r = .ok boundary → d.net.rule r = .ok boundary ∨
      d.net.states.size ≤ boundary.start ∧ d.net.states.size ≤ boundary.stop)
    (sources : ∀ e ∈ added, d.net.states.size ≤ e.1 ∧ ¬d'.Open e.1) : d'.Tidy := by
  have ext : Extended d d' added :=
    { fewer := by
        rintro n (new | ⟨q, mem, here⟩ | ⟨r, boundary, found, here⟩)
        · exact .inl (by omega)
        · exact .inr (.inl ⟨q, waiting.mem_iff.mpr mem, here⟩)
        · rcases bounds r boundary found with old | new
          · exact .inr (.inr ⟨r, boundary, old, bodies ▸ here⟩)
          · refine .inl ?_
            rcases here with rfl | ⟨rfl, -⟩
            · exact new.2
            · exact new.1
      sources := fun e mem => ⟨.inl (sources e mem).1, (sources e mem).2⟩
      ways
      maxSymbol }
  refine tidy.extend ext (fun q mem => .inl (made ▸ mem)) (fun r e given => .inl (bodies ▸ given))
    kept ((waiting.map _).nodup_iff.mp tidy.apart) fun q mem r boundary found => ?_
  have waits := waiting.mem_iff.mpr mem
  rcases bounds r boundary found with old | new
  · exact tidy.inner q waits r boundary old
  · have := drafted.exit_lt waits
    omega

/-- An operation without fragments leaves the fragments and the bodies as they are. -/
theorem apply_aside {α : Type} (op : Operation) {work : Build α}
    (run : op.run = do let _ ← work; pure []) (bodied : op.bodied? = none)
    (waiting : d.waiting.Perm ([] ++ rest)) :
    (d.apply op [] rest).net = (exec work d.net).2 ∧ (d.apply op [] rest).made = d.made ∧
      d.waiting.Perm (d.apply op [] rest).waiting ∧ (d.apply op [] rest).body? = d.body? := by
  rw [apply, run, exec_bind, bodied]
  generalize exec work d.net = outcome
  obtain ⟨e | a, net'⟩ := outcome
  · exact ⟨rfl, rfl, .refl _, rfl⟩
  · exact ⟨rfl, rfl, waiting, by simp⟩

theorem rule_of_ruled {net net' : Network} (ruled : Ruled net net') {r : Int} {boundary : Rule} :
    net'.rule r = .ok boundary ↔ net.rule r = .ok boundary ∨
      r = net.rules.size ∧ boundary = ⟨net.states.size, net.states.size + 1⟩ := by
  rw [Fragment.rule_eq_ok_iff, Fragment.rule_eq_ok_iff, ruled.rules, Array.getElem?_push]
  by_cases last : r.toNat = net.rules.size
  · rw [if_pos last, last, Array.getElem?_eq_none (Nat.le_refl _)]
    simp only [Option.some.injEq, reduceCtorEq, and_false, false_or]
    exact and_congr (by omega) eq_comm
  · rw [if_neg last]
    have other : r ≠ net.rules.size := fun here => last (by rw [here]; rfl)
    simp [other]

theorem Tidy.of_ruled (tidy : d.Tidy) (drafted : Drafted d) {α : Type} {op : Operation}
    {work : Build α} (run : op.run = do let _ ← work; pure []) (bodied : op.bodied? = none)
    (waiting : d.waiting.Perm ([] ++ rest)) (ruled : Ruled d.net (exec work d.net).2) :
    (d.apply op [] rest).Tidy := by
  obtain ⟨net, made, waits, bodies⟩ := apply_aside op run bodied waiting
  rw [← net] at ruled
  have ways : ∀ n, (d.apply op [] rest).net.ways n = d.net.ways n ++ edgesFrom [] n := by
    intro n
    rw [ruled.ways, edgesFrom_nil, List.append_nil]
  refine tidy.of_kept drafted made waits bodies ruled.size ruled.maxSymbol ways
    (fun r boundary found => (rule_of_ruled ruled).mpr (.inl found)) (fun r boundary found => ?_)
    (by simp)
  refine ((rule_of_ruled ruled).mp found).imp_right ?_
  rintro ⟨-, rfl⟩
  simp

theorem tidy_newMode (tidy : d.Tidy) (drafted : Drafted d) (name : String) (rules : List Int)
    (waiting : d.waiting.Perm ([] ++ rest)) : (d.apply (.newMode name rules) [] rest).Tidy := by
  obtain ⟨net, made, waits, bodies⟩ := apply_aside (.newMode name rules) rfl rfl waiting
  obtain ⟨added, grown, sources⟩ := d.net.grown_newMode name rules
  rw [← net] at grown
  have same := rule_congr grown.rules
  refine tidy.of_kept drafted made waits bodies grown.size grown.maxSymbol grown.ways
    (fun r boundary found => (same r).trans found)
    (fun r boundary found => .inl ((same r).symm.trans found)) fun e mem => ?_
  rw [sources e mem]
  refine ⟨le_rfl, ?_⟩
  rintro (new | ⟨q, mem, here⟩ | ⟨r, boundary, found, here⟩)
  · rw [grown.size] at new
    omega
  · have := drafted.exit_lt (waits.mem_iff.mpr mem)
    omega
  · have := drafted.bounds_lt ((same r).symm.trans found)
    omega

/-- A refusal leaves the draft as it is. -/
theorem apply_of_refused {op : Operation} {e : NetworkError}
    (refused : exec op.run d.net = (.error e, d.net)) : d.apply op used rest = d := by
  simp only [apply, refused]

/-! ### All operations -/

theorem Tidy.apply (tidy : d.Tidy) (drafted : Drafted d) {op : Operation}
    (allowed : d.Allows op used rest) : (d.apply op used rest).Tidy := by
  obtain ⟨waiting, uses, -, free⟩ := allowed
  have same : ∀ e, exec op.run d.net = (.error e, d.net) → (d.apply op used rest).Tidy :=
    fun e refused => (apply_of_refused refused).symm ▸ tidy
  cases op with
  | newRule =>
      obtain rfl := List.map_eq_nil_iff.mp uses
      refine tidy.of_ruled drafted rfl rfl waiting ?_
      rw [Fragment.exec_newRule]
      exact ruled_withRule d.net
  | newLexerRule tokenType =>
      obtain rfl := List.map_eq_nil_iff.mp uses
      exact tidy.of_ruled drafted rfl rfl waiting (ruled_newLexerRule d.net tokenType)
  | newMode name rules =>
      obtain rfl := List.map_eq_nil_iff.mp uses
      exact tidy_newMode tidy drafted name rules waiting
  | setRuleBody r body =>
      obtain ⟨p, rfl, rfl⟩ := List.map_eq_singleton_iff.mp uses
      cases found : d.net.rule r with
      | error e =>
          refine same e ?_
          simp only [Operation.run, exec_bind, Fragment.exec_setRuleBody_of_error found]
      | ok boundary =>
          rw [apply_setRuleBody found]
          exact tidy_settle tidy drafted waiting (free r rfl) found
  | element r label plain =>
      obtain rfl := List.map_eq_nil_iff.mp uses
      exact tidy_element tidy drafted r waiting label plain
  | ruleRef r callee precedence =>
      obtain rfl := List.map_eq_nil_iff.mp uses
      cases found : d.net.rule callee with
      | error e =>
          refine same e ?_
          simp only [Operation.run, exec_bind, Fragment.exec_ruleRef_of_error found]
      | ok boundary => exact tidy_ruleRef tidy drafted r waiting callee precedence found
  | sequence r fragments =>
      obtain rfl : used.map Part.fragment = fragments := uses
      cases used with
      | nil => exact same .emptySequence rfl
      | cons p used => exact tidy_sequence tidy drafted r waiting
  | alternatives r fragments =>
      obtain rfl : used.map Part.fragment = fragments := uses
      cases used with
      | nil => exact same .emptyBlock rfl
      | cons p used =>
          cases used with
          | nil => exact tidy_alternative tidy drafted r waiting
          | cons q used => exact tidy_alternatives tidy drafted r waiting
  | optional r body =>
      obtain ⟨p, rfl, rfl⟩ := List.map_eq_singleton_iff.mp uses
      exact tidy_optional tidy drafted r waiting
  | star r body =>
      obtain ⟨p, rfl, rfl⟩ := List.map_eq_singleton_iff.mp uses
      exact tidy_star tidy drafted r waiting
  | plus r body =>
      obtain ⟨p, rfl, rfl⟩ := List.map_eq_singleton_iff.mp uses
      exact tidy_plus tidy drafted r waiting

theorem tidy_start (grammar : GrammarKind) (maxSymbol : Int) :
    Tidy { net := { grammar, maxSymbol } } where
  idle := fun n _ => ways_of_size_le (Nat.zero_le n)
  parts := fun _ mem => nomatch mem
  bodies := fun _ _ given => nomatch given
  apart := .nil
  inner := fun _ mem => nomatch mem

end Draft

/-- Every draft is tidy. -/
theorem Drafted.tidy {d : Draft} (drafted : Drafted d) : d.Tidy := by
  induction drafted with
  | start grammar maxSymbol => exact Draft.tidy_start grammar maxSymbol
  | apply drafted allowed ih => exact ih.apply drafted allowed

end GrammarNet
