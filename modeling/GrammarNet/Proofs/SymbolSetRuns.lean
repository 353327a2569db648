import GrammarNet.SymbolSet.Words
import Mathlib.Data.List.Induction
import Mathlib.Data.Set.Insert

/-!
Runs of changes to sets of symbols.

A run works on a family of sets that start empty. It is followed three times: on the sets
(`SetOp.run`), on lists of intervals in machine words (`SetOp.wordRun`), where a sum that overflows
ends the run, and on the mathematical sets that the changes describe (`SetOp.described`).

Each change keeps the three in step when its symbols are short words: a symbol that enters a set is
one of them or comes from another set (`inWords_result`), and on sets of such symbols no sum
overflows (`wordResult_eq`). So a whole run in words has a result, in which the sets have the one
form that their symbols allow (`SetOp.canonical_of_run`).
-/

namespace GrammarNet

/-- A change to one of a family of sets. -/
inductive SetOp where
  | addSymbol (i : Nat) (x : Int)
  | add (i : Nat) (lo hi : Int)
  | addAll (i other : Nat)
  | remove (i : Nat) (x : Int)
  deriving DecidableEq, Repr

namespace SetOp

open Intervals

/-- The set that is changed. -/
def target : SetOp → Nat
  | addSymbol i _ => i
  | add i _ _ => i
  | addAll i _ => i
  | remove i _ => i

/-- What the change makes of its set. -/
def result (sets : Nat → SymbolSet) : SetOp → SymbolSet
  | addSymbol i x => (sets i).addSymbol x
  | add i lo hi => (sets i).add lo hi
  | addAll i other => sets i ∪ sets other
  | remove i x => (sets i).remove x

/-- What the change makes of the intervals of its set, unless a sum overflows. -/
def wordResult (lists : Nat → List Interval) : SetOp → Option (List Interval)
  | addSymbol i x => Words.add? x x (lists i)
  | add i lo hi => Words.add? lo hi (lists i)
  | addAll i other => Words.addAll? (lists other) (lists i)
  | remove i x => Words.remove? x (lists i)

/-- What the change makes of its set, in mathematical terms. -/
def description (sets : Nat → Set Int) : SetOp → Set Int
  | addSymbol i x => insert x (sets i)
  | add i lo hi => sets i ∪ {x | lo ≤ x ∧ x ≤ hi}
  | addAll i other => sets i ∪ sets other
  | remove i x => sets i \ {x}

/-- The sets after a run. -/
def run (ops : List SetOp) : Nat → SymbolSet :=
  ops.foldl (fun sets op => Function.update sets op.target (op.result sets)) fun _ => ∅

/-- The intervals after a run, unless a sum overflows. -/
def wordRun (ops : List SetOp) : Option (Nat → List Interval) :=
  ops.foldlM (fun lists op => do return Function.update lists op.target (← op.wordResult lists))
    fun _ => []

/-- The mathematical sets after a run. -/
def described (ops : List SetOp) : Nat → Set Int :=
  ops.foldl (fun sets op => Function.update sets op.target (op.description sets)) fun _ => ∅

/-- The symbols that a change names are short words. -/
def Fits : SetOp → Prop
  | addSymbol _ x => Width.word.Fits x
  | add _ lo hi => Width.word.Fits lo ∧ Width.word.Fits hi
  | addAll _ _ => True
  | remove _ x => Width.word.Fits x

instance (op : SetOp) : Decidable op.Fits :=
  match op with
  | addSymbol _ x => inferInstanceAs (Decidable (Width.word.Fits x))
  | add _ lo hi => inferInstanceAs (Decidable (Width.word.Fits lo ∧ Width.word.Fits hi))
  | addAll _ _ => inferInstanceAs (Decidable True)
  | remove _ x => inferInstanceAs (Decidable (Width.word.Fits x))

/-! ### One change -/

section Step

variable {op : SetOp} {sets : Nat → SymbolSet}

theorem mem_result {meant : Nat → Set Int} (same : ∀ i x, x ∈ sets i ↔ x ∈ meant i) (x : Int) :
    x ∈ op.result sets ↔ x ∈ op.description meant := by
  cases op with
  | addSymbol i y => simp [result, description, same]
  | add i lo hi => simp [result, description, same, or_comm]
  | addAll i other => simp [result, description, same]
  | remove i y => simp [result, description, same]

theorem inWords_result (fits : op.Fits) (inWords : ∀ i, (sets i).InWords) :
    (op.result sets).InWords := by
  cases op with
  | addSymbol i y => exact (inWords i).add fits fits
  | add i lo hi => exact (inWords i).add fits.1 fits.2
  | addAll i other => exact (inWords i).union (inWords other)
  | remove i y => exact (inWords i).remove y

theorem wordResult_eq (fits : op.Fits) (inWords : ∀ i, (sets i).InWords) :
    op.wordResult (fun i => (sets i).intervals) = some (op.result sets).intervals := by
  have new := inWords_result fits inWords
  cases op with
  | addSymbol i y => exact Words.add?_eq new
  | add i lo hi => exact Words.add?_eq new
  | addAll i other => exact Words.addAll?_eq new
  | remove i y => exact Words.remove?_eq (inWords i)

end Step

/-! ### Runs -/

theorem run_concat (ops : List SetOp) (op : SetOp) :
    run (ops ++ [op]) = Function.update (run ops) op.target (op.result (run ops)) := by
  simp [run]

theorem described_concat (ops : List SetOp) (op : SetOp) :
    described (ops ++ [op]) =
      Function.update (described ops) op.target (op.description (described ops)) := by
  simp [described]

theorem mem_run (ops : List SetOp) (i : Nat) (x : Int) :
    x ∈ run ops i ↔ x ∈ described ops i := by
  induction ops using List.reverseRecOn generalizing i x with
  | nil => simp [run, described]
  | append_singleton ops op ih =>
      rw [run_concat, described_concat]
      by_cases h : i = op.target
      · subst h
        rw [Function.update_self, Function.update_self]
        exact mem_result ih x
      · rw [Function.update_of_ne h, Function.update_of_ne h]
        exact ih i x

theorem inWords_run {ops : List SetOp} (fits : ∀ op ∈ ops, op.Fits) (i : Nat) :
    (run ops i).InWords := by
  induction ops using List.reverseRecOn generalizing i with
  | nil => exact SymbolSet.inWords_empty
  | append_singleton ops op ih =>
      rw [List.forall_mem_append, List.forall_mem_singleton] at fits
      rw [run_concat]
      by_cases h : i = op.target
      · subst h
        rw [Function.update_self]
        exact inWords_result fits.2 (ih fits.1)
      · rw [Function.update_of_ne h]
        exact ih fits.1 i

theorem wordRun_eq {ops : List SetOp} (fits : ∀ op ∈ ops, op.Fits) :
    wordRun ops = some fun i => (run ops i).intervals := by
  induction ops using List.reverseRecOn with
  | nil => rfl
  | append_singleton ops op ih =>
      rw [List.forall_mem_append, List.forall_mem_singleton] at fits
      have before := ih fits.1
      unfold wordRun at before ⊢
      rw [List.foldlM_append, before]
      simp only [List.foldlM_cons, List.foldlM_nil, Option.pure_def, Option.bind_eq_bind,
        Option.bind_some, wordResult_eq fits.2 (inWords_run fits.1), run_concat]
      congr 1
      funext i
      by_cases h : i = op.target
      · subst h
        rw [Function.update_self, Function.update_self]
      · rw [Function.update_of_ne h, Function.update_of_ne h]

/-- A run on symbols of 32 bits overflows nowhere. After it, each set has non-empty intervals of
such symbols with gaps between them, it finds exactly the symbols that the run describes, and it is
equal to another exactly when both find the same symbols. -/
theorem canonical_of_run {ops : List SetOp} (fits : ∀ op ∈ ops, op.Fits) :
    ∃ lists, wordRun ops = some lists ∧
      (∀ i, lists i = (run ops i).intervals ∧ Separated (lists i) ∧
        ∀ r ∈ lists i, Width.word.Fits r.lo ∧ Width.word.Fits r.hi) ∧
      (∀ i x, (Words.contains (lists i) x = true ↔ x ∈ described ops i) ∧
        ((run ops i).contains x = true ↔ x ∈ described ops i)) ∧
      ∀ i j, (lists i = lists j ↔ run ops i = run ops j) ∧
        (run ops i = run ops j ↔
          ∀ x, Width.word.Fits x → (run ops i).contains x = (run ops j).contains x) := by
  have found : ∀ i x, (run ops i).contains x = true ↔ x ∈ described ops i := fun i x =>
    SymbolSet.contains_iff.trans (mem_run ops i x)
  refine ⟨fun i => (run ops i).intervals, wordRun_eq fits, fun i => ?_, fun i x => ?_,
    fun i j => ⟨⟨?_, ?_⟩, ?_⟩⟩
  · exact ⟨rfl, (run ops i).separated, fun r => (inWords_run fits i).ends⟩
  · exact ⟨(Words.contains_iff (run ops i).separated).trans (mem_run ops i x), found i x⟩
  · exact SymbolSet.intervals_inj.mp
  · exact congrArg SymbolSet.intervals
  · constructor
    · intro same x _
      rw [same]
    · intro same
      refine SymbolSet.ext fun x => ?_
      rw [← SymbolSet.contains_iff, ← SymbolSet.contains_iff]
      by_cases word : Width.word.Fits x
      · rw [same x word]
      · -- neither set has a symbol that is no word
        rw [SymbolSet.contains_iff, SymbolSet.contains_iff]
        exact iff_of_false (fun mem => word (inWords_run fits i x mem))
          fun mem => word (inWords_run fits j x mem)

/-- Changes at both ends of the range of words, on three sets. -/
def endChanges : List SetOp :=
  [.add 0 (-2147483648) 2147483647, .remove 0 (-2147483648), .remove 0 2147483647, .remove 0 5,
    .add 1 6 2147483646, .add 1 4 (-1), .add 1 (-2147483647) 0, .addSymbol 2 3, .add 2 1 4,
    .addAll 2 1, .addAll 1 2, .addAll 1 1]

/-- The first two sets come to have the same symbols in different ways, and are equal. -/
theorem canonical_of_run_endChanges :
    (∀ op ∈ endChanges, op.Fits) ∧
      ∃ lists, wordRun endChanges = some lists ∧
        lists 0 = [⟨-2147483647, 4⟩, ⟨6, 2147483646⟩] ∧ lists 1 = lists 0 ∧
        Words.contains (lists 1) 2147483647 = false ∧ Words.contains (lists 1) 4 = true := by
  have fits : ∀ op ∈ endChanges, op.Fits := by decide
  obtain ⟨lists, made, shape, found, equal⟩ := canonical_of_run fits
  have first : (run endChanges 0).intervals = [⟨-2147483647, 4⟩, ⟨6, 2147483646⟩] := by
    decide +kernel
  have second : run endChanges 1 = run endChanges 0 := by
    decide +kernel
  have finds : ∀ x, Words.contains (lists 1) x = (run endChanges 1).contains x := fun x =>
    Bool.eq_iff_iff.mpr ((found 1 x).1.trans (found 1 x).2.symm)
  refine ⟨fits, lists, made, (shape 0).1.trans first, (equal 1 0).1.mpr second, ?_, ?_⟩
  · rw [finds]
    decide +kernel
  · rw [finds]
    decide +kernel

end SetOp

end GrammarNet
