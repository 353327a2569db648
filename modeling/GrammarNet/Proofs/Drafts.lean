import GrammarNet.Proofs.FragmentEdges
import GrammarNet.Proofs.SettledPieces

/-!
Grammars that are made of fragments, each of which is used once.

A draft is a network under construction with the fragments made for it, each with its rule and with
the expression it was made of (`Part`). An operation uses up fragments that are waiting, all of them
of its own rule, and a rule gets one body (`Drafted`). An operation that is refused uses up nothing.

What keeps the fragments apart is that edges are added only at open states (`Draft.Open`): at new
states, at the exits of fragments that wait and at the starts of rules that have no body yet. An
open state has no edges, and what is made leads to its end without meeting an open state before
(`Draft.Tidy`). So no later operation changes its words (`Extended.spells`).
-/

namespace GrammarNet

open Build Network Computability

/-! ### Expressions -/

/-- An expression over the labels of edges and the rules of a grammar. -/
inductive Expr where
  | element (label : Label)
  | ref (rule : Int)
  | sequence (parts : List Expr)
  | alternatives (parts : List Expr)
  | optional (body : Expr)
  | star (body : Expr)
  | plus (body : Expr)

/-- The words of an expression, given the largest symbol and the words of the rules. -/
def Expr.words (max : Int) (env : Int → Language Int) : Expr → Language Int
  | element label => label.words max env
  | ref rule => env rule
  | sequence parts => (parts.map fun part => part.words max env).prod
  | alternatives parts => (parts.map fun part => part.words max env).sum
  | optional body => body.words max env + 1
  | star body => (body.words max env)∗
  | plus body => body.words max env * (body.words max env)∗

/-- What an operation makes of the expressions of the fragments that it uses. Only operations that
make a fragment have a use for it. -/
def Operation.expr : Operation → List Expr → Expr
  | element _ label _, _ => .element label
  | ruleRef _ callee _, _ => .ref callee
  | optional .., body :: _ => .optional body
  | star .., body :: _ => .star body
  | plus .., body :: _ => .plus body
  | alternatives .., parts => .alternatives parts
  | _, parts => .sequence parts

/-- The rule that an operation gives a body. -/
def Operation.bodied? : Operation → Option Int
  | setRuleBody rule _ => some rule
  | _ => none

/-! ### Drafts -/

/-- A fragment with its rule and its expression. -/
structure Part where
  rule : Int
  fragment : Fragment
  expr : Expr

/-- A network under construction. -/
structure Draft where
  net : Network
  /-- What was made so far. -/
  made : List Part := []
  /-- What no operation has used yet. -/
  waiting : List Part := []
  /-- The bodies that the rules were given. -/
  body? : Int → Option Expr := fun _ => none

namespace Draft

/-- The draft after an operation that uses some parts and leaves the rest of them waiting. When it
is refused, they all go on waiting. -/
def apply (d : Draft) (op : Operation) (used rest : List Part) : Draft :=
  match exec op.run d.net with
  | (.ok fragments, net) =>
      let parts := fragments.map fun f => ⟨op.rule, f, op.expr (used.map Part.expr)⟩
      { net
        made := parts ++ d.made
        waiting := parts ++ rest
        body? := fun r => if op.bodied? = some r then used.head?.map Part.expr else d.body? r }
  | (.error _, net) => { d with net }

/-- The draft without the expressions. -/
def assembly (d : Draft) : Assembly :=
  ⟨d.net, d.made.map fun p => (p.rule, p.fragment)⟩

/-- The operation uses parts that wait, all of them of its own rule, and leaves the rest of them. If
it gives a rule a body, the rule has none yet. -/
structure Allows (d : Draft) (op : Operation) (used rest : List Part) : Prop where
  waiting : d.waiting.Perm (used ++ rest)
  uses : used.map Part.fragment = op.uses
  own : ∀ p ∈ used, p.rule = op.rule
  free : ∀ r, op.bodied? = some r → d.body? r = none

end Draft

/-- The draft is made by operations that use each fragment once and in its own rule, and that give
each rule one body. -/
inductive Drafted : Draft → Prop where
  | start (grammar : GrammarKind) (maxSymbol : Int) : Drafted { net := { grammar, maxSymbol } }
  | apply {d : Draft} {op : Operation} {used rest : List Part} :
      Drafted d → d.Allows op used rest → Drafted (d.apply op used rest)

/-- An operation with the parts that it uses and those that it leaves. -/
abbrev DraftStep :=
  Operation × List Part × List Part

/-- The draft after some operations. -/
def Draft.run (d : Draft) : List DraftStep → Draft
  | [] => d
  | (op, used, rest) :: steps => (d.apply op used rest).run steps

theorem Draft.mem_made_apply {d : Draft} {op : Operation} {used rest : List Part} {p : Part}
    (made : p ∈ d.made) : p ∈ (d.apply op used rest).made := by
  unfold apply
  split
  · exact List.mem_append_right _ made
  · exact made

/-- Each operation is one that the draft before it allows. -/
def Draft.Fits (d : Draft) : List DraftStep → Prop
  | [] => True
  | (op, used, rest) :: steps => d.Allows op used rest ∧ (d.apply op used rest).Fits steps

theorem Drafted.run {d : Draft} (drafted : Drafted d) {steps : List DraftStep}
    (fits : d.Fits steps) : Drafted (d.run steps) := by
  induction steps generalizing d with
  | nil => exact drafted
  | cons step steps ih => exact ih (drafted.apply fits.1) fits.2

/-! ### Drafts are assemblies -/

theorem Draft.assembly_apply (d : Draft) (op : Operation) (used rest : List Part) :
    (d.apply op used rest).assembly = d.assembly.apply op := by
  simp only [apply, Assembly.apply, assembly]
  generalize exec op.run d.net = outcome
  obtain ⟨e | fragments, net⟩ := outcome
  · rfl
  · rw [List.map_append, List.map_map]
    rfl

namespace Drafted

variable {d : Draft}

theorem mem_made (drafted : Drafted d) : ∀ p ∈ d.waiting, p ∈ d.made := by
  induction drafted with
  | start => exact fun p mem => nomatch mem
  | @apply d op used rest _ allowed ih =>
      have left : ∀ p ∈ rest, p ∈ d.made := fun p mem =>
        ih p (allowed.waiting.mem_iff.mpr (List.mem_append_right used mem))
      unfold Draft.apply
      split
      · exact fun p mem => List.mem_append.mpr ((List.mem_append.mp mem).imp_right (left p))
      · exact ih

theorem assembled (drafted : Drafted d) : Assembled d.assembly := by
  induction drafted with
  | start grammar maxSymbol => exact .start grammar maxSymbol
  | @apply d op used rest drafted allowed ih =>
      have parts : ∀ f ∈ op.uses, (op.rule, f) ∈ d.assembly.parts := by
        rw [← allowed.uses, List.forall_mem_map]
        intro p mem
        have waits := allowed.waiting.mem_iff.mpr (List.mem_append_left rest mem)
        rw [← allowed.own p mem]
        exact List.mem_map.mpr ⟨p, drafted.mem_made p waits, rfl⟩
      rw [Draft.assembly_apply]
      exact ih.apply op parts

theorem sound (drafted : Drafted d) : d.assembly.Sound :=
  drafted.assembled.sound

theorem wired (drafted : Drafted d) : d.net.Wired :=
  drafted.sound.wired

/-- The end of a fragment that waits is a state that goes on. -/
theorem going (drafted : Drafted d) {p : Part} (waits : p ∈ d.waiting) :
    d.net.Going p.fragment.exit := by
  obtain ⟨s, hs, -, -, inner⟩ := drafted.sound.parts (p.rule, p.fragment)
    (List.mem_map.mpr ⟨p, drafted.mem_made p waits, rfl⟩) p.fragment.exit (by simp [Fragment.ends])
  exact ⟨s, hs, inner⟩

theorem exit_lt (drafted : Drafted d) {p : Part} (waits : p ∈ d.waiting) :
    p.fragment.exit < d.net.states.size := by
  obtain ⟨s, hs, -⟩ := drafted.going waits
  exact Lookahead.lt_size_of_get? hs

variable {r r' : Int} {boundary boundary' : Rule}

theorem bounds_lt (drafted : Drafted d) (found : d.net.rule r = .ok boundary) :
    boundary.start < d.net.states.size ∧ boundary.stop < d.net.states.size := by
  obtain ⟨⟨s, hs, -⟩, ⟨e, he, -⟩⟩ := (Fragment.bounds_of_rule drafted.wired found).1
  exact ⟨Lookahead.lt_size_of_get? hs, Lookahead.lt_size_of_get? he⟩

/-- A start of a rule is no end of a rule. -/
theorem start_ne_stop (drafted : Drafted d) (found : d.net.rule r = .ok boundary)
    (found' : d.net.rule r' = .ok boundary') : boundary.start ≠ boundary'.stop := by
  intro same
  obtain ⟨s, hs, kind, -⟩ := (Fragment.bounds_of_rule drafted.wired found).1.start
  obtain ⟨e, he, kind', -⟩ := (Fragment.bounds_of_rule drafted.wired found').1.stop
  rw [same, he] at hs
  cases hs
  cases kind.symm.trans kind'

/-- Each rule has a start of its own. -/
theorem rule_unique (drafted : Drafted d) (found : d.net.rule r = .ok boundary)
    (found' : d.net.rule r' = .ok boundary') (same : boundary.start = boundary'.start) :
    r = r' := by
  obtain ⟨s, hs, -, number⟩ := (Fragment.bounds_of_rule drafted.wired found).1.start
  obtain ⟨s', hs', -, number'⟩ := (Fragment.bounds_of_rule drafted.wired found').1.start
  rw [same, hs'] at hs
  cases hs
  exact number.symm.trans number'

end Drafted

/-! ### Open states -/

namespace Draft

/-- The end of a rule, or the start of a rule that has no body. -/
def Boundary (d : Draft) (n : Nat) : Prop :=
  ∃ r boundary, d.net.rule r = .ok boundary ∧
    (n = boundary.stop ∨ n = boundary.start ∧ d.body? r = none)

/-- A state at which edges may still be added, or the end of a rule. -/
def Open (d : Draft) (n : Nat) : Prop :=
  d.net.states.size ≤ n ∨ (∃ p ∈ d.waiting, p.fragment.exit = n) ∨ d.Boundary n

/-- What leads from `n` to `z` spells an expression, and no open state lies before `z`. -/
def Spells (d : Draft) (n z : Nat) (e : Expr) : Prop :=
  Settled d.net.ways d.net.maxSymbol d.Open n z fun env => e.words d.net.maxSymbol env

/-- Open states have no edges, and what is made spells its expression. -/
structure Tidy (d : Draft) : Prop where
  idle : ∀ n, d.Open n → d.net.ways n = []
  parts : ∀ p ∈ d.made, d.Spells p.fragment.entry p.fragment.exit p.expr
  bodies : ∀ r e, d.body? r = some e →
    ∃ boundary, d.net.rule r = .ok boundary ∧ d.Spells boundary.start boundary.stop e
  apart : (d.waiting.map fun p => p.fragment.exit).Nodup
  inner : ∀ p ∈ d.waiting, ∀ r boundary, d.net.rule r = .ok boundary →
    p.fragment.exit ≠ boundary.start ∧ p.fragment.exit ≠ boundary.stop

/-! ### New edges at open states -/

/-- Edges are added at open states, which are closed by it. -/
structure Extended (d d' : Draft) (added : List (Nat × Transition)) : Prop where
  fewer : ∀ n, d'.Open n → d.Open n
  sources : ∀ e ∈ added, d.Open e.1 ∧ ¬d'.Open e.1
  ways : ∀ n, d'.net.ways n = d.net.ways n ++ edgesFrom added n
  maxSymbol : d'.net.maxSymbol = d.net.maxSymbol

namespace Extended

variable {d d' : Draft} {added : List (Nat × Transition)} {n z : Nat} {e : Expr}

theorem same (ext : Extended d d' added) : ∀ m, ¬d.Open m → d'.net.ways m = d.net.ways m := by
  intro m closed
  have none : edgesFrom added m = [] :=
    edgesFrom_eq_nil fun e mem here => closed (here ▸ (ext.sources e mem).1)
  rw [ext.ways, none, List.append_nil]

/-- What was settled is settled for the states that were open before. -/
theorem before (ext : Extended d d' added) (piece : d.Spells n z e) :
    Settled d'.net.ways d'.net.maxSymbol d.Open n z fun env => e.words d'.net.maxSymbol env := by
  rw [ext.maxSymbol]
  exact Settled.grow piece ext.same fun _ opened => opened

theorem spells (ext : Extended d d' added) (piece : d.Spells n z e) : d'.Spells n z e :=
  (ext.before piece).grow (fun _ _ => rfl) ext.fewer

theorem idle (ext : Extended d d' added) (tidy : d.Tidy) (opened : d'.Open n) :
    d'.net.ways n = [] := by
  have none : edgesFrom added n = [] :=
    edgesFrom_eq_nil fun e mem here => (ext.sources e mem).2 (here ▸ opened)
  rw [ext.ways, none, tidy.idle n (ext.fewer n opened), List.append_nil]

/-- The edges of a state at which edges are added. -/
theorem edges (ext : Extended d d' added) (tidy : d.Tidy) (source : n ∈ added.map Prod.fst) :
    d'.net.ways n = edgesFrom added n := by
  obtain ⟨e, mem, rfl⟩ := List.mem_map.mp source
  rw [ext.ways, tidy.idle e.1 (ext.sources e mem).1, List.nil_append]

theorem closed (ext : Extended d d' added) (source : n ∈ added.map Prod.fst) : ¬d'.Open n := by
  obtain ⟨e, mem, rfl⟩ := List.mem_map.mp source
  exact (ext.sources e mem).2

end Extended

end Draft

end GrammarNet
