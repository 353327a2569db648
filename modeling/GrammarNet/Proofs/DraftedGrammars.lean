import GrammarNet.Proofs.DraftSteps

/-!
Every grammar has a draft.

An expression can be made in a rule, however deep it is, when what it calls is registered and no
sequence and no choice in it is empty (`Expr.Formed`). By induction on the expression there are
operations that make it and are not refused (`exists_part`): each of them uses up what the ones
before it made. With the rules registered first, all bodies can be made, so that rules may call each
other in any way (`exists_drafted`).
-/

namespace GrammarNet

open Build Network

/-- The expression can be made when there are this many rules. -/
inductive Expr.Formed (rules : Nat) : Expr → Prop where
  | element {label : Label} : label.follow? = none → Formed rules (.element label)
  | ref {rule : Nat} : rule < rules → Formed rules (.ref rule)
  | sequence {parts : List Expr} :
      parts ≠ [] → (∀ part ∈ parts, Formed rules part) → Formed rules (.sequence parts)
  | alternatives {parts : List Expr} :
      parts ≠ [] → (∀ part ∈ parts, Formed rules part) → Formed rules (.alternatives parts)
  | optional {body : Expr} : Formed rules body → Formed rules (.optional body)
  | star {body : Expr} : Formed rules body → Formed rules (.star body)
  | plus {body : Expr} : Formed rules body → Formed rules (.plus body)

namespace Draft

/-- The draft went on, and some more parts wait in it. -/
structure Adds (d d' : Draft) (parts : List Part) : Prop where
  drafted : Drafted d'
  waiting : d'.waiting.Perm (parts ++ d.waiting)
  body? : d'.body? = d.body?
  rules : d'.net.rules = d.net.rules
  grammar : d'.net.grammar = d.net.grammar
  maxSymbol : d'.net.maxSymbol = d.net.maxSymbol

variable {d d' d'' : Draft} {parts parts' used : List Part} {r : Int} {e : Expr} {es : List Expr}

theorem Adds.refl (drafted : Drafted d) : d.Adds d [] :=
  ⟨drafted, .refl _, rfl, rfl, rfl, rfl⟩

theorem Adds.waits (adds : d.Adds d' parts) {p : Part} (mem : p ∈ parts) : p ∈ d'.waiting :=
  adds.waiting.mem_iff.mpr (List.mem_append_left d.waiting mem)

theorem Adds.trans (first : d.Adds d' parts) (second : d'.Adds d'' parts') :
    d.Adds d'' (parts' ++ parts) where
  drafted := second.drafted
  waiting := by
    rw [List.append_assoc]
    exact second.waiting.trans (first.waiting.append_left parts')
  body? := second.body?.trans first.body?
  rules := second.rules.trans first.rules
  grammar := second.grammar.trans first.grammar
  maxSymbol := second.maxSymbol.trans first.maxSymbol

/-- Parts are used up for another one. -/
theorem Adds.make (adds : d.Adds d' used) {op : Operation} {f : Fragment} {fresh : Nat}
    {added : List (Nat × Transition)} (lays : op.Lays d'.net f fresh added)
    (uses : used.map Part.fragment = op.uses) (own : ∀ p ∈ used, p.rule = op.rule)
    (bodied : op.bodied? = none) :
    ∃ d'', d.Adds d'' [⟨op.rule, f, op.expr (used.map Part.expr)⟩] := by
  obtain ⟨net', grown, applied⟩ := apply_of_lays lays bodied
  have allowed : d'.Allows op used d.waiting :=
    ⟨adds.waiting, uses, own, by simp [bodied]⟩
  refine ⟨_, adds.drafted.apply allowed, ?_, ?_, ?_, ?_, ?_⟩ <;> rw [applied]
  · exact .refl _
  · exact adds.body?
  · exact grown.rules.trans adds.rules
  · exact grown.grammar.trans adds.grammar
  · exact grown.maxSymbol.trans adds.maxSymbol

/-- The expression can be made in the rule. -/
def Makeable (rules : Nat) (r : Int) (e : Expr) : Prop :=
  ∀ d, Drafted d → d.net.rules.size = rules → ∃ d' f, d.Adds d' [⟨r, f, e⟩]

/-- With expressions each of which can be made, all of them can be made. -/
theorem exists_parts {rules : Nat} (each : ∀ e ∈ es, Makeable rules r e) (drafted : Drafted d)
    (size : d.net.rules.size = rules) :
    ∃ d' parts, d.Adds d' parts ∧ parts.map Part.expr = es ∧ ∀ p ∈ parts, p.rule = r := by
  induction es with
  | nil => exact ⟨d, [], .refl drafted, rfl, by simp⟩
  | cons e es ih =>
      rw [List.forall_mem_cons] at each
      obtain ⟨d', parts, adds, rfl, own⟩ := ih each.2
      obtain ⟨d'', f, more⟩ := each.1 d' adds.drafted (by rw [adds.rules, size])
      exact ⟨d'', _, adds.trans more, rfl, by simpa using own⟩

theorem Adds.going (adds : d.Adds d' parts) :
    ∀ f ∈ parts.map Part.fragment, d'.net.Going f.exit := by
  rw [List.forall_mem_map]
  exact fun p mem => adds.drafted.going (adds.waits mem)

theorem Adds.sequence (adds : d.Adds d' parts) (some : parts ≠ [])
    (own : ∀ p ∈ parts, p.rule = r) :
    ∃ d'' f, d.Adds d'' [⟨r, f, .sequence (parts.map Part.expr)⟩] := by
  obtain ⟨p, rest, rfl⟩ := List.exists_cons_of_ne_nil some
  obtain ⟨d'', made⟩ := adds.make (Operation.lays_sequence adds.going) rfl own rfl
  exact ⟨d'', _, made⟩

theorem Adds.alternatives (adds : d.Adds d' parts) (some : parts ≠ [])
    (own : ∀ p ∈ parts, p.rule = r) :
    ∃ d'' f, d.Adds d'' [⟨r, f, .alternatives (parts.map Part.expr)⟩] := by
  match parts with
  | [] => exact absurd rfl some
  | [p] =>
      obtain ⟨d'', made⟩ := adds.make (Operation.lays_alternative p.fragment) rfl own rfl
      exact ⟨d'', _, made⟩
  | p :: q :: rest =>
      obtain ⟨d'', made⟩ := adds.make (Operation.lays_alternatives adds.going) rfl own rfl
      exact ⟨d'', _, made⟩

/-- Every formed expression can be made. -/
theorem exists_part {rules : Nat} (formed : e.Formed rules) (r : Int) : Makeable rules r e := by
  induction formed with
  | element plain =>
      intro d drafted size
      obtain ⟨d', made⟩ := (Adds.refl drafted).make (Operation.lays_element plain) rfl (by simp) rfl
      exact ⟨d', _, made⟩
  | @ref rule less =>
      intro d drafted size
      have found : d.net.rule rule = .ok d.net.rules[rule] :=
        Fragment.rule_eq_ok_iff.mpr ⟨by omega, Array.getElem?_eq_getElem (by omega)⟩
      have lays : (Operation.ruleRef r rule 0).Lays d.net _ _ _ :=
        Operation.lays_ruleRef drafted.wired found
      obtain ⟨d', made⟩ := (Adds.refl drafted).make lays rfl (by simp) rfl
      exact ⟨d', _, made⟩
  | sequence nonempty _ ih =>
      intro d drafted size
      obtain ⟨d', parts, adds, rfl, own⟩ := exists_parts ih drafted size
      exact adds.sequence (by simpa using nonempty) own
  | alternatives nonempty _ ih =>
      intro d drafted size
      obtain ⟨d', parts, adds, rfl, own⟩ := exists_parts ih drafted size
      exact adds.alternatives (by simpa using nonempty) own
  | optional _ ih =>
      intro d drafted size
      obtain ⟨d', f, adds⟩ := ih d drafted size
      have going := adds.going f (by simp)
      obtain ⟨d'', made⟩ := adds.make (Operation.lays_optional going) rfl (by simp; rfl) rfl
      exact ⟨d'', _, made⟩
  | star _ ih =>
      intro d drafted size
      obtain ⟨d', f, adds⟩ := ih d drafted size
      have going := adds.going f (by simp)
      obtain ⟨d'', made⟩ := adds.make (Operation.lays_star going) rfl (by simp; rfl) rfl
      exact ⟨d'', _, made⟩
  | plus _ ih =>
      intro d drafted size
      obtain ⟨d', f, adds⟩ := ih d drafted size
      have going := adds.going f (by simp)
      obtain ⟨d'', made⟩ := adds.make (Operation.lays_plus going) rfl (by simp; rfl) rfl
      exact ⟨d'', _, made⟩

end Draft

/-! ### Whole grammars -/

/-- Rules without bodies. -/
theorem exists_rules (grammar : GrammarKind) (maxSymbol : Int) (n : Nat) :
    ∃ d, Drafted d ∧ d.waiting = [] ∧ d.net.grammar = grammar ∧ d.net.maxSymbol = maxSymbol ∧
      d.net.rules.size = n ∧ ∀ r, d.body? r = none := by
  induction n with
  | zero => exact ⟨_, .start grammar maxSymbol, rfl, rfl, rfl, rfl, fun _ => rfl⟩
  | succ n ih =>
      obtain ⟨d, drafted, waiting, kind, max, size, free⟩ := ih
      have perm : d.waiting.Perm ([] ++ []) := .of_eq waiting
      have allowed : d.Allows .newRule [] [] := ⟨perm, rfl, by simp, by simp [free]⟩
      obtain ⟨net, -, waits, bodies⟩ := Draft.apply_aside .newRule rfl rfl perm
      have ruled := ruled_withRule d.net
      have rule : (d.apply .newRule [] []).net = Fragment.withRule d.net := by
        rw [net, Fragment.exec_newRule]
      refine ⟨_, drafted.apply allowed, ?_, ?_, ?_, ?_, fun r => ?_⟩
      · exact List.nil_perm.mp (waiting ▸ waits)
      · rw [rule, ruled.grammar, kind]
      · rw [rule, ruled.maxSymbol, max]
      · rw [rule, ruled.rules, Array.size_push, size]
      · rw [bodies, free]

/-- A rule without a body gets one. -/
theorem Drafted.exists_bodied {d : Draft} (drafted : Drafted d) (waiting : d.waiting = []) {r : Nat}
    (less : r < d.net.rules.size) (free : d.body? r = none) {e : Expr}
    (formed : e.Formed d.net.rules.size) :
    ∃ d', Drafted d' ∧ d'.waiting = [] ∧ d'.net.grammar = d.net.grammar ∧
      d'.net.maxSymbol = d.net.maxSymbol ∧ d'.net.rules.size = d.net.rules.size ∧
      ∀ r', d'.body? r' = if r = r' then some e else d.body? r' := by
  obtain ⟨d', f, adds⟩ := Draft.exists_part formed r d drafted rfl
  have perm : d'.waiting.Perm ([⟨r, f, e⟩] ++ []) := waiting ▸ adds.waiting
  have found : d'.net.rule r = .ok d.net.rules[r] := by
    rw [Fragment.rule_eq_ok_iff, adds.rules]
    exact ⟨by omega, Array.getElem?_eq_getElem less⟩
  have allowed : d'.Allows (.setRuleBody r f) [⟨r, f, e⟩] [] :=
    { waiting := perm
      uses := rfl
      own := by simp; rfl
      free := fun r' same => by
        cases same
        rw [adds.body?, free] }
  have grown := Draft.grown_settle adds.drafted perm found
  have settled : d'.apply (.setRuleBody r f) [⟨r, f, e⟩] [] = _ :=
    Draft.apply_setRuleBody (p := ⟨r, f, e⟩) found
  refine ⟨_, adds.drafted.apply allowed, ?_⟩
  rw [settled]
  refine ⟨rfl, grown.grammar.trans adds.grammar, grown.maxSymbol.trans adds.maxSymbol, ?_,
    fun r' => ?_⟩
  · rw [grown.rules, adds.rules]
  · rw [← adds.body?]
    rfl

/-- **Every grammar has a draft.** -/
theorem exists_drafted (grammar : GrammarKind) (maxSymbol : Int) (bodies : List Expr)
    (formed : ∀ e ∈ bodies, e.Formed bodies.length) :
    ∃ d, Drafted d ∧ d.waiting = [] ∧ d.net.grammar = grammar ∧ d.net.maxSymbol = maxSymbol ∧
      d.net.rules.size = bodies.length ∧ ∀ i : Nat, d.body? i = bodies[i]? := by
  -- the first `k` rules have their bodies
  have some : ∀ k ≤ bodies.length, ∃ d, Drafted d ∧ d.waiting = [] ∧ d.net.grammar = grammar ∧
      d.net.maxSymbol = maxSymbol ∧ d.net.rules.size = bodies.length ∧
      ∀ i : Nat, d.body? i = if i < k then bodies[i]? else none := by
    intro k less
    induction k with
    | zero =>
        obtain ⟨d, drafted, waiting, kind, max, size, free⟩ :=
          exists_rules grammar maxSymbol bodies.length
        exact ⟨d, drafted, waiting, kind, max, size, fun i => by simp [free]⟩
    | succ k ih =>
        obtain ⟨d, drafted, waiting, kind, max, size, given⟩ := ih (by omega)
        have free : d.body? k = none := by simp [given]
        obtain ⟨d', drafted', waiting', kind', max', size', given'⟩ := drafted.exists_bodied waiting
          (by omega) free (size.symm ▸ formed _ (List.getElem_mem less))
        refine ⟨d', drafted', waiting', kind'.trans kind, max'.trans max, size'.trans size,
          fun i => ?_⟩
        rw [given', given]
        by_cases last : i = k
        · subst last
          simp [List.getElem?_eq_getElem less]
        · have apart : ¬(k : Int) = i := by omega
          have same : i < k + 1 ↔ i < k := by omega
          simp [apart, same]
  obtain ⟨d, drafted, waiting, kind, max, size, given⟩ := some bodies.length le_rfl
  refine ⟨d, drafted, waiting, kind, max, size, fun i => ?_⟩
  rw [given]
  split
  · rfl
  · next outside => exact (List.getElem?_eq_none (Nat.le_of_not_lt outside)).symm

end GrammarNet
