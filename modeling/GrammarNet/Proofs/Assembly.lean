import GrammarNet.Proofs.SafeFragments

/-!
Networks that are assembled from fragments.

An assembly is a network under construction with the fragments made for it, each with the rule it
was made for. An operation works in one rule and uses only fragments of this rule. A fragment may be
used more than once, and an operation that is refused may have changed the network before. Whatever
is assembled in this way is wired (`Assembled.sound`), however the rules call each other.
-/

namespace GrammarNet

open Build

/-- An operation on fragments, with the rule it works in. -/
inductive Operation where
  | newRule
  | newLexerRule (tokenType : Int)
  | setRuleBody (rule : Int) (body : Fragment)
  /-- Anything but a call. -/
  | element (rule : Int) (label : Label) (plain : label.follow? = none)
  | ruleRef (rule callee precedence : Int)
  | sequence (rule : Int) (fragments : List Fragment)
  | alternatives (rule : Int) (fragments : List Fragment)
  | optional (rule : Int) (body : Fragment)
  | star (rule : Int) (body : Fragment)
  | plus (rule : Int) (body : Fragment)
  | newMode (name : String) (rules : List Int)

namespace Operation

/-- The rule that an operation works in; negative when it works in none. -/
def rule : Operation → Int
  | newRule | newLexerRule _ | newMode .. => -1
  | setRuleBody r _ | element r .. | ruleRef r .. | sequence r _ | alternatives r _ | optional r _
  | star r _ | plus r _ => r

/-- The fragments that an operation uses. -/
def uses : Operation → List Fragment
  | newRule | newLexerRule _ | element .. | ruleRef .. | newMode .. => []
  | setRuleBody _ f | optional _ f | star _ f | plus _ f => [f]
  | sequence _ fragments | alternatives _ fragments => fragments

/-- Runs an operation; gives the fragments made. -/
def run : Operation → Build (List Fragment)
  | newRule => do
      let _ ← Fragment.newRule
      pure []
  | newLexerRule tokenType => do
      let _ ← Fragment.newLexerRule tokenType
      pure []
  | setRuleBody r body => do
      Fragment.setRuleBody r body
      pure []
  | element r label _ => do
      let f ← Fragment.element r label
      pure [f]
  | ruleRef r callee precedence => do
      let f ← Fragment.ruleRef r callee precedence
      pure [f]
  | sequence _ fragments => do
      let f ← Fragment.sequence fragments
      pure [f]
  | alternatives r fragments => do
      let f ← Fragment.alternatives r fragments
      pure [f]
  | optional r body => do
      let f ← Fragment.optional r body
      pure [f]
  | star r body => do
      let f ← Fragment.star r body
      pure [f]
  | plus r body => do
      let f ← Fragment.plus r body
      pure [f]
  | newMode name rules => do
      let _ ← Fragment.newMode name rules
      pure []

theorem entry_mem_ends {fragments : List Fragment} {f : Fragment} (mem : f ∈ fragments) :
    f.entry ∈ fragments.flatMap Fragment.ends :=
  List.mem_flatMap.mpr ⟨f, mem, by simp [Fragment.ends]⟩

theorem exit_mem_ends {fragments : List Fragment} {f : Fragment} (mem : f ∈ fragments) :
    f.exit ∈ fragments.flatMap Fragment.ends :=
  List.mem_flatMap.mpr ⟨f, mem, by simp [Fragment.ends]⟩

/-- Every operation keeps the network wired. -/
theorem safe (op : Operation) (base : Network) :
    Safe base op.rule (op.uses.flatMap Fragment.ends) op.run (·.flatMap Fragment.ends) := by
  have joined : ∀ fragments : List Fragment, ∀ f ∈ fragments,
      f.entry ∈ fragments.flatMap Fragment.ends ∧ f.exit ∈ fragments.flatMap Fragment.ends :=
    fun _ _ mem => ⟨entry_mem_ends mem, exit_mem_ends mem⟩
  have one : ∀ f : Fragment, f.entry ∈ [f].flatMap Fragment.ends ∧
      f.exit ∈ [f].flatMap Fragment.ends :=
    fun f => joined [f] f List.mem_cons_self
  have given : ∀ (f : Fragment) (ns : List Nat), ∀ n ∈ [f].flatMap Fragment.ends, n ∈ f.ends ++ ns := by
    intro f ns n mem
    exact List.mem_append_left ns (by simpa using mem)
  cases op with
  | newRule => exact .bind Fragment.newRule_safe fun _ => .pure (by simp)
  | newLexerRule tokenType => exact .bind Fragment.newLexerRule_safe fun _ => .pure (by simp)
  | setRuleBody r f =>
      exact .bind (Fragment.setRuleBody_safe (one f).1 (one f).2) fun _ => .pure (by simp)
  | element r label plain => exact .bind (Fragment.element_safe plain) fun f => .pure (given f _)
  | ruleRef r callee precedence => exact .bind Fragment.ruleRef_safe fun f => .pure (given f _)
  | sequence r fragments =>
      exact .bind (Fragment.sequence_safe (joined fragments)) fun f => .pure (given f _)
  | alternatives r fragments =>
      exact .bind (Fragment.alternatives_safe (joined fragments)) fun f => .pure (given f _)
  | optional r body =>
      exact .bind (Fragment.optional_safe (one body).1 (one body).2) fun f => .pure (given f _)
  | star r body =>
      exact .bind (Fragment.star_safe (one body).1 (one body).2) fun f => .pure (given f _)
  | plus r body =>
      exact .bind (Fragment.plus_safe (one body).1 (one body).2) fun f => .pure (given f _)
  | newMode name rules => exact .bind Fragment.newMode_safe fun _ => .pure (by simp)

end Operation

/-- A network under construction with the fragments made for it, each with its rule. -/
structure Assembly where
  net : Network
  parts : List (Int × Fragment) := []

/-- The assembly after an operation. When it is refused, no fragment is made. -/
def Assembly.apply (a : Assembly) (op : Operation) : Assembly :=
  match exec op.run a.net with
  | (.ok made, net) => ⟨net, made.map (op.rule, ·) ++ a.parts⟩
  | (.error _, net) => ⟨net, a.parts⟩

/-- The assembly is made by operations that use each fragment in the rule it was made for. -/
inductive Assembled : Assembly → Prop where
  | start (grammar : GrammarKind) (maxSymbol : Int) : Assembled { net := { grammar, maxSymbol } }
  | apply {a : Assembly} (op : Operation) :
      Assembled a → (∀ f ∈ op.uses, (op.rule, f) ∈ a.parts) → Assembled (a.apply op)

/-- The network is wired, and the fragments belong to their rules. -/
structure Assembly.Sound (a : Assembly) : Prop where
  wired : a.net.Wired
  parts : ∀ p ∈ a.parts, ∀ n ∈ p.2.ends, a.net.Inner p.1 n

theorem Assembly.sound_start (grammar : GrammarKind) (maxSymbol : Int) :
    Assembly.Sound { net := { grammar, maxSymbol } } where
  wired :=
    { numbered := fun n s hs => by simp [Network.get?] at hs
      edges := fun n s hs => by simp [Network.get?] at hs
      bounds := fun i rule entry => by simp at entry
      stops := fun n s hs => by simp [Network.get?] at hs }
  parts := fun p mem => nomatch mem

theorem Assembly.Sound.apply {a : Assembly} (sound : a.Sound) {op : Operation}
    (own : ∀ f ∈ op.uses, (op.rule, f) ∈ a.parts) : (a.apply op).Sound := by
  have leaves := op.safe a.net a.net (.refl _) sound.wired fun n hn => by
    obtain ⟨f, mem, hn⟩ := List.mem_flatMap.mp hn
    exact sound.parts _ (own f mem) n hn
  unfold Assembly.apply
  generalize exec op.run a.net = outcome at leaves
  obtain ⟨answer, net⟩ := outcome
  obtain ⟨wired, grown, made⟩ := leaves
  have old : ∀ p ∈ a.parts, ∀ n ∈ p.2.ends, net.Inner p.1 n :=
    fun p mem n hn => (sound.parts p mem n hn).mono grown
  cases answer with
  | error e => exact ⟨wired, old⟩
  | ok fragments =>
      refine ⟨wired, fun p mem n hn => ?_⟩
      rcases List.mem_append.mp mem with new | before
      · obtain ⟨f, here, rfl⟩ := List.mem_map.mp new
        exact made fragments rfl n (List.mem_flatMap.mpr ⟨f, here, hn⟩)
      · exact old p before n hn

/-- Whatever is assembled is wired. -/
theorem Assembled.sound {a : Assembly} (assembled : Assembled a) : a.Sound := by
  induction assembled with
  | start grammar maxSymbol => exact Assembly.sound_start grammar maxSymbol
  | apply op _ own ih => exact ih.apply own

/-! ### Sequences of operations -/

namespace Assembly

/-- The assembly after some operations. -/
def build (a : Assembly) : List Operation → Assembly
  | [] => a
  | op :: ops => (a.apply op).build ops

/-- Each operation uses fragments that were made for its rule before. -/
def Owns (a : Assembly) : List Operation → Prop
  | [] => True
  | op :: ops => (∀ f ∈ op.uses, (op.rule, f) ∈ a.parts) ∧ (a.apply op).Owns ops

instance decidableOwns (a : Assembly) (ops : List Operation) : Decidable (a.Owns ops) :=
  match ops with
  | [] => isTrue trivial
  | op :: ops =>
      have := (a.apply op).decidableOwns ops
      inferInstanceAs (Decidable (_ ∧ _))

end Assembly

theorem Assembled.build {a : Assembly} (assembled : Assembled a) {ops : List Operation}
    (owns : a.Owns ops) : Assembled (a.build ops) := by
  induction ops generalizing a with
  | nil => exact assembled
  | cons op ops ih => exact ih (assembled.apply op owns.1) owns.2

end GrammarNet
