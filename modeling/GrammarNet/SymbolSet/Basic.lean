import GrammarNet.SymbolSet.Interval

/-!
Sets of symbols, kept as separated lists of intervals.

The intervals of a set are determined by its symbols, so two sets are equal exactly when they have
the same symbols (`SymbolSet.ext`). Each operation has one lemma that says which symbols its result
has: `mem_add`, `mem_union`, `mem_remove`, `mem_complement`, `mem_toList`.
-/

namespace GrammarNet

/-- A finite set of symbols. -/
structure SymbolSet where
  /-- The symbols, as non-empty ascending intervals with a gap between any two. -/
  intervals : List Interval := []
  separated : Intervals.Separated intervals := by exact Intervals.separated_nil
  deriving DecidableEq

namespace SymbolSet

instance : EmptyCollection SymbolSet := ⟨{}⟩

instance : Inhabited SymbolSet := ⟨∅⟩

instance : Membership Int SymbolSet := ⟨fun s x => Intervals.Holds s.intervals x⟩

instance (s : SymbolSet) (x : Int) : Decidable (x ∈ s) :=
  inferInstanceAs (Decidable (Intervals.Holds s.intervals x))

theorem mem_def {s : SymbolSet} {x : Int} : x ∈ s ↔ ∃ r ∈ s.intervals, r.lo ≤ x ∧ x ≤ r.hi :=
  Iff.rfl

@[ext] theorem ext {s t : SymbolSet} (h : ∀ x, x ∈ s ↔ x ∈ t) : s = t := by
  obtain ⟨l, hl⟩ := s
  obtain ⟨m, hm⟩ := t
  have := hl.eq_of_holds_iff hm h
  subst this
  rfl

@[simp] theorem not_mem_empty {x : Int} : ¬ x ∈ (∅ : SymbolSet) :=
  Intervals.holds_nil

/-! ### Adding -/

/-- Adds the symbols from `lo` to `hi`; none when `hi` is below `lo`. -/
def add (s : SymbolSet) (lo hi : Int) : SymbolSet :=
  if h : lo ≤ hi then
    ⟨Intervals.insert ⟨lo, hi⟩ s.intervals, Intervals.separated_insert h s.separated⟩
  else s

@[simp] theorem mem_add {s : SymbolSet} {lo hi x : Int} :
    x ∈ s.add lo hi ↔ lo ≤ x ∧ x ≤ hi ∨ x ∈ s := by
  unfold add
  split
  · next h => exact Intervals.holds_insert (r := ⟨lo, hi⟩) h s.separated
  · constructor
    · exact .inr
    · rintro (h | h)
      · omega
      · exact h

/-- Adds one symbol. -/
def addSymbol (s : SymbolSet) (x : Int) : SymbolSet :=
  s.add x x

@[simp] theorem mem_addSymbol {s : SymbolSet} {x y : Int} :
    y ∈ s.addSymbol x ↔ y = x ∨ y ∈ s := by
  rw [addSymbol, mem_add]
  refine or_congr_left ?_
  omega

theorem mem_foldl_add {s : SymbolSet} {l : List Interval} {x : Int} :
    x ∈ l.foldl (fun u r => u.add r.lo r.hi) s ↔ x ∈ s ∨ Intervals.Holds l x := by
  induction l generalizing s with
  | nil => simp
  | cons r rest ih =>
      rw [List.foldl_cons, ih, mem_add, Intervals.holds_cons, or_assoc, or_left_comm]
      rfl

/-- The symbols of either set. -/
def union (s t : SymbolSet) : SymbolSet :=
  t.intervals.foldl (fun u r => u.add r.lo r.hi) s

instance : Union SymbolSet := ⟨union⟩

@[simp] theorem mem_union {s t : SymbolSet} {x : Int} : x ∈ s ∪ t ↔ x ∈ s ∨ x ∈ t :=
  mem_foldl_add

/-- The set of the symbols from `lo` to `hi`. -/
def interval (lo hi : Int) : SymbolSet :=
  (∅ : SymbolSet).add lo hi

@[simp] theorem mem_interval {lo hi x : Int} : x ∈ interval lo hi ↔ lo ≤ x ∧ x ≤ hi := by
  simp [interval]

/-- The set of one symbol. -/
def single (x : Int) : SymbolSet :=
  interval x x

@[simp] theorem mem_single {x y : Int} : y ∈ single x ↔ y = x := by
  rw [single, mem_interval]
  omega

/-- The set of the listed symbols. -/
def ofList (symbols : List Int) : SymbolSet :=
  symbols.foldl addSymbol ∅

theorem mem_foldl_addSymbol {s : SymbolSet} {symbols : List Int} {x : Int} :
    x ∈ symbols.foldl addSymbol s ↔ x ∈ symbols ∨ x ∈ s := by
  induction symbols generalizing s with
  | nil => simp
  | cons y symbols ih =>
      rw [List.foldl_cons, ih, mem_addSymbol, List.mem_cons, or_assoc, or_left_comm]

@[simp] theorem mem_ofList {symbols : List Int} {x : Int} : x ∈ ofList symbols ↔ x ∈ symbols := by
  rw [ofList, mem_foldl_addSymbol, or_iff_left not_mem_empty]

/-! ### Removing -/

/-- Takes one symbol out. -/
def remove (s : SymbolSet) (x : Int) : SymbolSet :=
  ⟨Intervals.remove x s.intervals, (Intervals.separated_remove s.separated).1⟩

@[simp] theorem mem_remove {s : SymbolSet} {x y : Int} : y ∈ s.remove x ↔ y ∈ s ∧ y ≠ x :=
  Intervals.holds_remove s.separated

/-- The symbols from `min` to `max` that are not in the set. -/
def complement (s : SymbolSet) (min max : Int) : SymbolSet :=
  ⟨Intervals.gaps min max s.intervals, (Intervals.separated_gaps s.separated).1⟩

@[simp] theorem mem_complement {s : SymbolSet} {min max x : Int} :
    x ∈ s.complement min max ↔ min ≤ x ∧ x ≤ max ∧ ¬ x ∈ s :=
  Intervals.holds_gaps s.separated

/-! ### Looking -/

/-- The set has this symbol. -/
def contains (s : SymbolSet) (x : Int) : Bool :=
  s.intervals.any fun r => decide (r.lo ≤ x) && decide (x ≤ r.hi)

@[simp] theorem contains_iff {s : SymbolSet} {x : Int} : s.contains x = true ↔ x ∈ s := by
  simp [contains, mem_def]

/-- The set has no symbols. -/
def isEmpty (s : SymbolSet) : Bool :=
  s.intervals.isEmpty

@[simp] theorem isEmpty_iff {s : SymbolSet} : s.isEmpty = true ↔ s = ∅ := by
  obtain ⟨l, hl⟩ := s
  cases l with
  | nil => simp [isEmpty]; rfl
  | cons r l => simp [isEmpty]; rintro ⟨⟩

/-- The number of symbols. -/
def size (s : SymbolSet) : Nat :=
  s.intervals.foldr (fun r n => r.size + n) 0

/-- The smallest symbol; of the empty set, `Symbol.invalid`. -/
def min (s : SymbolSet) : Int :=
  match s.intervals with
  | [] => Symbol.invalid
  | r :: _ => r.lo

/-- The symbols in ascending order. -/
def toList (s : SymbolSet) : List Int :=
  s.intervals.flatMap Interval.toList

@[simp] theorem mem_toList {s : SymbolSet} {x : Int} : x ∈ s.toList ↔ x ∈ s := by
  simp only [toList, List.mem_flatMap, Interval.mem_toList]
  rfl

theorem length_toList (s : SymbolSet) : s.toList.length = s.size := by
  unfold toList size
  induction s.intervals with
  | nil => rfl
  | cons r rest ih => rw [List.flatMap_cons, List.length_append, Interval.length_toList, ih]; rfl

end SymbolSet

end GrammarNet
